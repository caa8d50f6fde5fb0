import Stanli.Lib.Checks
import Stanli.Lib.Numeral
import Stanli.Mir.Syntax

namespace Stanli.Mir

/-! ### S-expressions

The parser of `sexp.hpp`, the accessors of its nodes and the spelling `dump` keeps in diagnostics. -/

/-- What the readers of the MIR throw. -/
inductive MirError
  /-- A `runtime_error` with its message. -/
  | runtime (message : Bytes)
  | nestingTooDeep (limit : ℕ)
  /-- `kids.at(i)` past the end. -/
  | outOfRange
  /-- A number the standard library cannot read. -/
  | conversion
  deriving DecidableEq

abbrev Checked := Except MirError

def malformed {α : Type} (what : Bytes) : Checked α :=
  .error (.runtime (ascii "mir: malformed " ++ what))

theorem checked_seq_eq_ok {β : Type} {x : Checked Unit} {f : Unit → Checked β} {b : β} :
    (x >>= f) = .ok b ↔ x = .ok () ∧ f () = .ok b := by
  rw [bind_eq_ok_iff]
  exact ⟨fun ⟨_, hx, hf⟩ => ⟨hx, hf⟩, fun ⟨hx, hf⟩ => ⟨(), hx, hf⟩⟩

namespace Sexp

inductive Node
  | atom (text : Bytes)
  | list (kids : List Node)

namespace Node

def isAtom : Node → Bool
  | atom _ => true
  | list _ => false

/-- The member `atom`, empty for a list. -/
def text : Node → Bytes
  | atom text => text
  | list _ => []

/-- The member `kids`, empty for an atom. -/
def kids : Node → List Node
  | atom _ => []
  | list kids => kids

def size (n : Node) : ℕ := n.kids.length

/-- `n[i]`. -/
def get (n : Node) (i : ℕ) : Checked Node :=
  match n.kids[i]? with
  | none => .error .outOfRange
  | some kid => .ok kid

def headIs (n : Node) (sym : Bytes) : Bool :=
  match n.kids with
  | atom text :: _ => text == sym
  | _ => false

/-- `field`: the first `(key ...)` inside a list of key-value lists. -/
def field (n : Node) (key : Bytes) : Option Node :=
  n.kids.find? fun kid => kid.headIs key

end Node

/-! ### Parsing -/

def isSpace (c : UInt8) : Bool :=
  c == 32 || c == 10 || c == 9 || c == 13

/-- A byte that ends a bare atom. -/
def isDelimiter (c : UInt8) : Bool :=
  c == 40 || c == 41 || c == 34 || isSpace c

/-- The text that is left, with the position of its first byte. -/
structure Cursor where
  position : ℕ
  rest : Bytes

def errorAt {α : Type} (what : String) (s : Cursor) : Checked α :=
  .error (.runtime (ascii ("sexp: " ++ what ++ " at position ") ++ decimal s.position))

def Cursor.advance (s : Cursor) (count : ℕ) : Cursor where
  position := s.position + count
  rest := s.rest.drop count

def skipWs (s : Cursor) : Cursor :=
  s.advance (s.rest.takeWhile isSpace).length

/-- The contents of a quoted string and what follows its closing quote. -/
def quoted : ℕ → Bytes → Checked (Bytes × Cursor)
  | i, [] => errorAt "unclosed string" ⟨i, []⟩
  | i, 34 :: rest => .ok ([], ⟨i + 1, rest⟩)
  | i, 92 :: c :: rest => do
    let (text, s) ← quoted (i + 2) rest
    pure (c :: text, s)
  | i, c :: rest => do
    let (text, s) ← quoted (i + 1) rest
    pure (c :: text, s)

/-- The atom that starts at the cursor. -/
def parseAtom (s : Cursor) : Checked (Node × Cursor) :=
  match s.rest with
  | 34 :: rest => do
    let (text, s) ← quoted (s.position + 1) rest
    pure (.atom text, s)
  | rest =>
    let text := rest.takeWhile fun c => !isDelimiter c
    .ok (.atom text, s.advance text.length)

/-- What `parse_at` finds after the blanks: the end, a list, a misplaced parenthesis or an atom. -/
inductive Opening
  | ended | list (s : Cursor) | closed (s : Cursor) | atom

def opening (s : Cursor) : Opening :=
  match s.rest with
  | [] => .ended
  | 40 :: rest => .list ⟨s.position + 1, rest⟩
  | 41 :: rest => .closed ⟨s.position + 1, rest⟩
  | _ => .atom

mutual

/-- `parse_at`.  Each turn consumes a byte, so the length of the text bounds the turns. -/
def parseAt : ℕ → Cursor → Checked (Node × Cursor)
  | 0, s => errorAt "unexpected end" (skipWs s)
  | fuel + 1, s =>
    match opening (skipWs s) with
    | .ended => errorAt "unexpected end" (skipWs s)
    | .list s => do
      let (kids, s) ← parseKids fuel s
      pure (.list kids, s)
    | .closed _ => errorAt "unexpected )" (skipWs s)
    | .atom => parseAtom (skipWs s)

/-- The loop over the items of a list. -/
def parseKids : ℕ → Cursor → Checked (List Node × Cursor)
  | 0, s => errorAt "unclosed list" (skipWs s)
  | fuel + 1, s =>
    match opening (skipWs s) with
    | .ended => errorAt "unclosed list" (skipWs s)
    | .closed s => .ok ([], s)
    | _ => do
      let (kid, s) ← parseAt fuel s
      let (kids, s) ← parseKids fuel s
      pure (kid :: kids, s)

end

/-- `sexp::parse` without a depth limit. -/
def parse (text : Bytes) : Checked Node := do
  let (n, s) ← parseAt (2 * text.length + 1) ⟨0, text⟩
  if (skipWs s).rest.isEmpty then pure n else errorAt "trailing content" (skipWs s)

/-! ### Spelling -/

/-- The cut that keeps a spelling within its budget. -/
def clip (budget : ℕ) (out : Bytes) : Bytes :=
  if out.length > budget then out.take budget ++ ascii "..." else out

mutual

/-- `dump`. -/
def dump : Node → ℕ → Bytes
  | .atom text, budget => clip budget text
  | .list kids, budget => clip budget (dumpKids kids true (ascii "(") budget ++ ascii ")")

/-- The loop over the items of a list, after `out`. -/
def dumpKids : List Node → Bool → Bytes → ℕ → Bytes
  | [], _, out, _ => out
  | kid :: kids, first, out, budget =>
    if out.length < budget then
      let out := if first = true then out else out ++ ascii " "
      dumpKids kids false (out ++ dump kid (budget - out.length)) budget
    else out

end

/-- The budget `dump` has by default. -/
def kDumpBudget : ℕ := 240

end Sexp

end Stanli.Mir
