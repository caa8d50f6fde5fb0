import Mathlib.Data.UInt
import Stanli.Mir.SexpText

namespace Stanli.Mir.Sexp

/-! ### Printing an s-expression and reading it back

`sexp_string` of `portable_mir.ml` prints what `sexp::parse` reads. A backslash followed by a letter or
by three digits is an escape for the printer; the parser drops the backslash and keeps what follows.
So the tree comes back with every atom as `reread` leaves it (`parse_sexpString`), which is the tree
itself exactly when every byte of every atom is printable (`parseInverts_iff`). -/

/-! ### The printer -/

section Printer

variable (toStringMach : Bytes → Bytes)

mutual

/-- `sexp_string`, over the printer of atoms. -/
def sexpString : Node → Bytes
  | .atom a => toStringMach a
  | .list kids => 40 :: (sexpStrings kids ++ [41])

/-- The children, with a blank between any two. -/
def sexpStrings : List Node → Bytes
  | [] => []
  | [k] => sexpString k
  | k :: ks => sexpString k ++ 32 :: sexpStrings ks

end

end Printer

/-- A printable byte: the blank and what follows it up to the tilde. -/
def isPrintable (c : UInt8) : Bool := decide (32 ≤ c) && decide (c ≤ 126)

/-- An atom that may be printed as it stands. -/
def Bare (a : Bytes) : Prop :=
  a ≠ [] ∧ ∀ c ∈ a, isPrintable c = true ∧ isDelimiter c = false ∧ c ≠ 92 ∧ c ≠ 59

instance (a : Bytes) : Decidable (Bare a) := inferInstanceAs (Decidable (_ ∧ _))

/-- The letter of an escape that has one: newline, tab, backspace and carriage return. -/
def escapeLetter (c : UInt8) : Option UInt8 :=
  if c = 10 then some 110
  else if c = 9 then some 116
  else if c = 8 then some 98
  else if c = 13 then some 114
  else none

/-- The three decimal digits of a byte. -/
def digits (c : UInt8) : Bytes := [48 + c / 100, 48 + c / 10 % 10, 48 + c % 10]

/-- A byte inside quotes. -/
def escape (c : UInt8) : Bytes :=
  if c = 34 ∨ c = 92 then [92, c]
  else if isPrintable c then [c]
  else (escapeLetter c).elim (92 :: digits c) fun l => [92, l]

/-- An atom in quotes. -/
def quotation (a : Bytes) : Bytes := 34 :: (a.flatMap escape ++ [34])

/-- The printer of atoms prints one that may be printed as it stands either so or in quotes, and any
other in quotes. -/
def PrintsAtoms (toStringMach : Bytes → Bytes) : Prop :=
  ∀ a, (Bare a ∧ toStringMach a = a) ∨ toStringMach a = quotation a

/-- A printer that uses no quotes where it can. -/
def machString (a : Bytes) : Bytes := if Bare a then a else quotation a

theorem printsAtoms_machString : PrintsAtoms machString := by
  intro a
  rw [machString]
  split
  · rename_i h
    exact .inl ⟨h, rfl⟩
  · exact .inr rfl

/-! ### Bytes -/

/-- What the parser makes of an escaped byte. -/
def reread (c : UInt8) : Bytes :=
  if isPrintable c then [c] else (escapeLetter c).elim (digits c) fun l => [l]

/-- A decimal digit. -/
def IsDigit (c : UInt8) : Prop := 48 ≤ c ∧ c ≤ 57

theorem isDigit_digits (c : UInt8) : ∀ d ∈ digits c, IsDigit d := by
  have hall : IsDigit (48 + c / 100) ∧ IsDigit (48 + c / 10 % 10) ∧ IsDigit (48 + c % 10) := by
    simp only [IsDigit, UInt8.le_iff_toNat_le, UInt8.toNat_add, UInt8.toNat_div, UInt8.toNat_mod,
      UInt8.reduceToNat]
    have hc := c.toNat_lt
    omega
  obtain ⟨h₁, h₂, h₃⟩ := hall
  simp [digits, h₁, h₂, h₃]

theorem IsDigit.ne {c : UInt8} (h : IsDigit c) : c ≠ 34 ∧ c ≠ 92 := by
  constructor
  · rintro rfl
    exact absurd h.1 (by decide)
  · rintro rfl
    exact absurd h.2 (by decide)

theorem isPrintable_of_isDigit {c : UInt8} (h : IsDigit c) : isPrintable c = true := by
  obtain ⟨h₁, h₂⟩ := h
  have hle : (32 : UInt8) ≤ c := UInt8.le_trans (by decide) h₁
  have hle' : c ≤ 126 := UInt8.le_trans h₂ (by decide)
  simp [isPrintable, hle, hle']

theorem isPrintable_of_escapeLetter {c l : UInt8} (h : escapeLetter c = some l) :
    isPrintable l = true := by
  rw [escapeLetter] at h
  split_ifs at h <;> cases h <;> decide

/-- What comes back is printable. -/
theorem isPrintable_of_mem_reread {c d : UInt8} (h : d ∈ reread c) : isPrintable d = true := by
  rw [reread] at h
  split at h
  · rename_i hc
    rwa [List.mem_singleton.1 h]
  · cases hl : escapeLetter c with
    | some l =>
      rw [hl, Option.elim_some, List.mem_singleton] at h
      rw [h]
      exact isPrintable_of_escapeLetter hl
    | none =>
      rw [hl, Option.elim_none] at h
      exact isPrintable_of_isDigit (isDigit_digits c d h)

theorem flatMap_reread {a : Bytes} (h : ∀ c ∈ a, isPrintable c = true) : a.flatMap reread = a := by
  induction a with
  | nil => rfl
  | cons c a ih =>
    have hc : reread c = [c] := if_pos (h c (List.mem_cons_self ..))
    rw [List.flatMap_cons, hc, ih fun d hd => h d (List.mem_cons_of_mem _ hd), List.singleton_append]

/-- An atom comes back as it was exactly when all its bytes are printable. -/
theorem flatMap_reread_iff (a : Bytes) :
    a.flatMap reread = a ↔ ∀ c ∈ a, isPrintable c = true := by
  refine ⟨fun h c hc => ?_, flatMap_reread⟩
  rw [← h, List.mem_flatMap] at hc
  obtain ⟨d, -, hd⟩ := hc
  exact isPrintable_of_mem_reread hd

/-! ### Atoms -/

/-- The parser takes the contents of a quoted string, and the quote behind them, from the front. -/
def Unquotes (text a rest : Bytes) : Prop := ∀ i, ∃ j, quoted i text = .ok (a, ⟨j, rest⟩)

theorem unquotes_quote (rest : Bytes) : Unquotes (34 :: rest) [] rest :=
  fun i => ⟨i + 1, rfl⟩

theorem Unquotes.escaped {text a rest : Bytes} (h : Unquotes text a rest) (c : UInt8) :
    Unquotes (92 :: c :: text) (c :: a) rest := by
  intro i
  obtain ⟨j, hj⟩ := h (i + 2)
  exact ⟨j, by simp only [quoted, hj, bind, Except.bind, pure, Except.pure]⟩

theorem Unquotes.plain {text a rest : Bytes} (h : Unquotes text a rest) {c : UInt8} (hq : c ≠ 34)
    (hb : c ≠ 92) : Unquotes (c :: text) (c :: a) rest := by
  intro i
  obtain ⟨j, hj⟩ := h (i + 1)
  refine ⟨j, ?_⟩
  rw [quoted, hj]
  · rfl
  · exact hq
  · exact fun _ _ hc => absurd hc hb

theorem Unquotes.digits {text a rest ds : Bytes} (h : Unquotes text a rest)
    (hds : ∀ d ∈ ds, IsDigit d) : Unquotes (ds ++ text) (ds ++ a) rest := by
  induction ds with
  | nil => exact h
  | cons d ds ih =>
    obtain ⟨hq, hb⟩ := (hds d (List.mem_cons_self ..)).ne
    exact (ih fun e he => hds e (List.mem_cons_of_mem _ he)).plain hq hb

/-- An escaped byte comes back as `reread` says. -/
theorem Unquotes.escape {text a rest : Bytes} (h : Unquotes text a rest) (c : UInt8) :
    Unquotes (Sexp.escape c ++ text) (reread c ++ a) rest := by
  rw [Sexp.escape, reread]
  split
  · rename_i hspecial
    have hc : isPrintable c = true := by
      rcases hspecial with rfl | rfl <;> decide
    rw [if_pos hc]
    exact h.escaped c
  · rename_i hspecial
    rw [not_or] at hspecial
    split
    · exact h.plain hspecial.1 hspecial.2
    · cases escapeLetter c with
      | some l => exact h.escaped l
      | none =>
        have htail : Unquotes ([48 + c / 10 % 10, 48 + c % 10] ++ text)
            ([48 + c / 10 % 10, 48 + c % 10] ++ a) rest :=
          h.digits fun d hd => isDigit_digits c d (List.mem_cons_of_mem _ hd)
        exact htail.escaped _

theorem unquotes_flatMap_escape (a rest : Bytes) :
    Unquotes (a.flatMap escape ++ 34 :: rest) (a.flatMap reread) rest := by
  induction a with
  | nil => exact unquotes_quote rest
  | cons c a ih =>
    rw [List.flatMap_cons, List.flatMap_cons, List.append_assoc]
    exact ih.escape c

/-! ### Trees -/

mutual

/-- The tree as the parser gives it back. -/
def Node.reread : Node → Node
  | .atom a => .atom (a.flatMap Sexp.reread)
  | .list kids => .list (rereadAll kids)

def rereadAll : List Node → List Node
  | [] => []
  | n :: ns => n.reread :: rereadAll ns

end

mutual

/-- Every byte of every atom of the tree is printable. -/
def Node.Printable : Node → Prop
  | .atom a => ∀ c ∈ a, isPrintable c = true
  | .list kids => AllPrintable kids

def AllPrintable : List Node → Prop
  | [] => True
  | n :: ns => n.Printable ∧ AllPrintable ns

end

mutual

theorem Node.reread_eq_self_iff (n : Node) : n.reread = n ↔ n.Printable := by
  cases n with
  | atom a =>
    rw [Node.reread, Node.Printable, Node.atom.injEq]
    exact flatMap_reread_iff a
  | list kids =>
    rw [Node.reread, Node.Printable, Node.list.injEq]
    exact rereadAll_eq_self_iff kids

theorem rereadAll_eq_self_iff (ns : List Node) : rereadAll ns = ns ↔ AllPrintable ns := by
  cases ns with
  | nil => simp [rereadAll, AllPrintable]
  | cons n ns =>
    rw [rereadAll, AllPrintable, List.cons.injEq, Node.reread_eq_self_iff n,
      rereadAll_eq_self_iff ns]

end

/-- The parser takes a node from the front of the text. -/
def Takes (text : Bytes) (n : Node) (rest : Bytes) : Prop :=
  ∀ i, ∃ fuel j, parseAt fuel ⟨i, text⟩ = .ok (n, ⟨j, rest⟩)

/-- The parser takes the items of a list, and the parenthesis behind them, from the front. -/
def TakesAll (text : Bytes) (ns : List Node) (rest : Bytes) : Prop :=
  ∀ i, ∃ fuel j, parseKids fuel ⟨i, text⟩ = .ok (ns, ⟨j, rest⟩)

/-- The text starts where a bare atom may end. -/
def Stops (text : Bytes) : Prop := ∀ c, text.head? = some c → isDelimiter c = true

theorem stops_cons {c : UInt8} (hc : isDelimiter c = true) (rest : Bytes) : Stops (c :: rest) := by
  intro d hd
  cases hd
  exact hc

/-- The text starts with something other than white space and a closing parenthesis. -/
def Starts (text : Bytes) : Prop := ∃ c rest, text = c :: rest ∧ isSpace c = false ∧ c ≠ 41

theorem skipWs_cons {c : UInt8} (hc : isSpace c = false) (i : ℕ) (rest : Bytes) :
    skipWs ⟨i, c :: rest⟩ = ⟨i, c :: rest⟩ := by
  simp [skipWs, Cursor.advance, hc]

theorem takes_bare {a rest : Bytes} (ha : a ≠ []) (hbare : ∀ c ∈ a, isDelimiter c = false)
    (hrest : Stops rest) : Takes (a ++ rest) (.atom a) rest := by
  intro i
  refine ⟨1, i + a.length, ?_⟩
  obtain ⟨c, tail, rfl⟩ := List.exists_cons_of_ne_nil ha
  have hc := hbare c (List.mem_cons_self ..)
  simp only [isDelimiter, Bool.or_eq_false_iff, beq_eq_false_iff_ne] at hc
  obtain ⟨⟨⟨hopen, hclose⟩, hquote⟩, hws⟩ := hc
  have htake : (c :: tail ++ rest).takeWhile (fun c => !isDelimiter c) = c :: tail := by
    rw [List.takeWhile_append_of_pos fun d hd => by rw [hbare d hd]; rfl]
    cases rest with
    | nil => simp
    | cons d rest => simp [hrest d rfl]
  rw [parseAt, List.cons_append, skipWs_cons hws, ← List.cons_append]
  have hop : opening ⟨i, c :: tail ++ rest⟩ = .atom := by simp [opening, hopen, hclose]
  rw [hop]
  simp only [parseAtom, List.cons_append]
  split
  · rename_i heq
    cases heq
    exact absurd rfl hquote
  · rw [← List.cons_append, htake, Cursor.advance, List.drop_left]

theorem takes_quotation (a rest : Bytes) :
    Takes (quotation a ++ rest) (.atom (a.flatMap Sexp.reread)) rest := by
  intro i
  obtain ⟨j, hj⟩ := unquotes_flatMap_escape a rest (i + 1)
  refine ⟨1, j, ?_⟩
  have htext : quotation a ++ rest = 34 :: (a.flatMap escape ++ 34 :: rest) := by
    rw [quotation, List.cons_append, List.append_assoc, List.singleton_append]
  have hop : opening ⟨i, 34 :: (a.flatMap escape ++ 34 :: rest)⟩ = .atom := rfl
  rw [htext, parseAt, skipWs_cons (by decide), hop]
  simp only [parseAtom, hj]
  rfl

section Printer

variable {toStringMach : Bytes → Bytes}

theorem takes_atom (hprints : PrintsAtoms toStringMach) (a : Bytes) {rest : Bytes}
    (hrest : Stops rest) : Takes (toStringMach a ++ rest) (.atom (a.flatMap Sexp.reread)) rest := by
  rcases hprints a with ⟨⟨hne, hbare⟩, htext⟩ | htext
  · rw [htext, flatMap_reread fun c hc => (hbare c hc).1]
    exact takes_bare hne (fun c hc => (hbare c hc).2.1) hrest
  · rw [htext]
    exact takes_quotation a rest

theorem TakesAll.list {text rest : Bytes} {kids : List Node} (h : TakesAll text kids rest) :
    Takes (40 :: text) (.list kids) rest := by
  intro i
  obtain ⟨fuel, j, hfuel⟩ := h (i + 1)
  refine ⟨fuel + 1, j, ?_⟩
  have hop : opening ⟨i, 40 :: text⟩ = .list ⟨i + 1, text⟩ := rfl
  rw [parseAt, skipWs_cons (by decide), hop]
  simp only [hfuel]
  rfl

theorem takesAll_close (rest : Bytes) : TakesAll (41 :: rest) [] rest := by
  intro i
  refine ⟨1, i + 1, ?_⟩
  rw [parseKids, skipWs_cons (by decide)]
  rfl

/-- The parser starts where the blanks end. -/
theorem parse_congr_skipWs {s s' : Cursor} (h : skipWs s = skipWs s') (fuel : ℕ) :
    parseAt fuel s = parseAt fuel s' ∧ parseKids fuel s = parseKids fuel s' := by
  have hat : ∀ fuel, parseAt fuel s = parseAt fuel s' := by
    intro fuel
    cases fuel with
    | zero => rw [parseAt, parseAt, h]
    | succ fuel => rw [parseAt, parseAt, h]
  refine ⟨hat fuel, ?_⟩
  cases fuel with
  | zero => rw [parseKids, parseKids, h]
  | succ fuel => rw [parseKids, parseKids, h, hat]

/-- A blank in front of the rest of a list. -/
theorem TakesAll.blank {text rest : Bytes} {ns : List Node} (h : TakesAll text ns rest) :
    TakesAll (32 :: text) ns rest := by
  intro i
  obtain ⟨fuel, j, hfuel⟩ := h (i + 1)
  have hskip : skipWs ⟨i, 32 :: text⟩ = skipWs ⟨i + 1, text⟩ := by
    have hspace : isSpace 32 = true := rfl
    simp only [skipWs, Cursor.advance, List.takeWhile_cons, hspace, if_true, List.length_cons,
      List.drop_succ_cons, Cursor.mk.injEq, and_true]
    omega
  exact ⟨fuel, j, by rw [(parse_congr_skipWs hskip fuel).2, hfuel]⟩

theorem TakesAll.cons {text text' rest : Bytes} {n : Node} {ns : List Node} (hstart : Starts text)
    (hn : Takes text n text') (hns : TakesAll text' ns rest) : TakesAll text (n :: ns) rest := by
  intro i
  obtain ⟨c, tail, rfl, hws, hclose⟩ := hstart
  obtain ⟨fuel, j, hfuel⟩ := hn i
  obtain ⟨fuel', j', hfuel'⟩ := hns j
  refine ⟨max fuel fuel' + 1, j', ?_⟩
  have hkid := parseAt_mono (Nat.le_max_left fuel fuel') hfuel
  have hkids := parseKids_mono (Nat.le_max_right fuel fuel') hfuel'
  rw [parseKids, skipWs_cons hws, hkid]
  obtain ⟨hrest, -⟩ | ⟨tail', -, hop⟩ | ⟨tail', hrest, -⟩ | ⟨d, tail', -, -, -, hop⟩ :=
    opening_cases ⟨i, c :: tail⟩
  · cases hrest
  · rw [hop]
    change parseKids (max fuel fuel') ⟨j, text'⟩ >>= _ = _
    rw [hkids]
    rfl
  · cases hrest
    exact absurd rfl hclose
  · rw [hop]
    change parseKids (max fuel fuel') ⟨j, text'⟩ >>= _ = _
    rw [hkids]
    rfl

theorem starts_sexpString (hprints : PrintsAtoms toStringMach) (n : Node) (rest : Bytes) :
    Starts (sexpString toStringMach n ++ rest) := by
  cases n with
  | atom a =>
    rw [sexpString]
    rcases hprints a with ⟨⟨hne, hbare⟩, htext⟩ | htext
    · obtain ⟨c, a, rfl⟩ := List.exists_cons_of_ne_nil hne
      have hc := (hbare c (List.mem_cons_self ..)).2.1
      simp only [isDelimiter, Bool.or_eq_false_iff, beq_eq_false_iff_ne] at hc
      refine ⟨c, a ++ rest, ?_, hc.2, hc.1.1.2⟩
      rw [htext, List.cons_append]
    · refine ⟨34, a.flatMap escape ++ [34] ++ rest, ?_, by decide, by decide⟩
      rw [htext, quotation, List.cons_append]
  | list kids =>
    refine ⟨40, sexpStrings toStringMach kids ++ [41] ++ rest, ?_, by decide, by decide⟩
    rw [sexpString, List.cons_append]

mutual

theorem takes_sexpString (hprints : PrintsAtoms toStringMach) (n : Node) {rest : Bytes}
    (hrest : Stops rest) : Takes (sexpString toStringMach n ++ rest) n.reread rest := by
  cases n with
  | atom a =>
    rw [sexpString, Node.reread]
    exact takes_atom hprints a hrest
  | list kids =>
    rw [sexpString, Node.reread, List.cons_append, List.append_assoc, List.singleton_append]
    exact (takesAll_sexpStrings hprints kids rest).list

theorem takesAll_sexpStrings (hprints : PrintsAtoms toStringMach) (ns : List Node) (rest : Bytes) :
    TakesAll (sexpStrings toStringMach ns ++ 41 :: rest) (rereadAll ns) rest := by
  cases ns with
  | nil => exact takesAll_close rest
  | cons n ns =>
    rw [rereadAll]
    cases ns with
    | nil =>
      rw [sexpStrings]
      exact .cons (starts_sexpString hprints n _)
        (takes_sexpString hprints n (stops_cons (by decide) _)) (takesAll_close rest)
    | cons k ns =>
      have htail := takesAll_sexpStrings hprints (k :: ns) rest
      rw [sexpStrings, List.append_assoc, List.cons_append]
      · exact .cons (starts_sexpString hprints n _)
          (takes_sexpString hprints n (stops_cons (by decide) _)) htail.blank
      · exact List.cons_ne_nil _ _

end

/-- The parser gives back the printed tree with every atom as it is reread. -/
theorem parse_sexpString (hprints : PrintsAtoms toStringMach) (n : Node) :
    parse (sexpString toStringMach n) = .ok n.reread := by
  have hstop : Stops [] := fun c hc => by cases hc
  obtain ⟨fuel, j, hfuel⟩ := takes_sexpString hprints n hstop 0
  rw [List.append_nil] at hfuel
  have hmax := parseAt_mono (Nat.le_max_left fuel (2 * (sexpString toStringMach n).length + 1)) hfuel
  have hturns := parseAt_turns ⟨0, sexpString toStringMach n⟩
    (Nat.lt_of_lt_of_le (Nat.lt_succ_self _) (Nat.le_max_right fuel _))
  rw [hturns] at hmax
  rw [parse, hmax]
  rfl

end Printer

/-! ### Printing and parsing are inverse -/

/-- The parser ends on every text, a parse that goes through has used up the whole of it, and parsing
the printed tree gives back the tree. -/
structure ParseInverts (toStringMach : Bytes → Bytes) (n : Node) : Prop where
  ends : ∀ (text : Bytes) (fuel : ℕ), 2 * text.length < fuel →
    parseAt fuel ⟨0, text⟩ = parseAt (2 * text.length + 1) ⟨0, text⟩
  consumes : ∀ text m, parse text = .ok m →
    ∃ used ws, text = used ++ ws ∧ Spelling used m ∧ ∀ c ∈ ws, isSpace c = true
  inverts : parse (sexpString toStringMach n) = .ok n

/-- They are, for the trees of printable atoms and no others. -/
theorem parseInverts_iff {toStringMach : Bytes → Bytes} (hprints : PrintsAtoms toStringMach)
    (n : Node) : ParseInverts toStringMach n ↔ n.Printable := by
  rw [← n.reread_eq_self_iff]
  constructor
  · intro h
    have hparse := h.inverts
    rw [parse_sexpString hprints n] at hparse
    exact Except.ok.inj hparse
  · intro h
    refine ⟨fun text fuel hfuel => parseAt_turns _ hfuel, fun _ _ => parse_eq_ok, ?_⟩
    rw [parse_sexpString hprints n, h]

/-- A list of a word, a letter with a quotation mark and an empty atom. -/
theorem parseInverts_words :
    ParseInverts machString (.list [.atom (ascii "print"), .atom (ascii "a\""), .atom []]) := by
  rw [parseInverts_iff printsAtoms_machString]
  simp only [Node.Printable, AllPrintable]
  decide +kernel

/-- A newline is printed as a backslash and an `n`, and read as an `n`. -/
theorem not_parseInverts_newline : ¬ ParseInverts machString (.atom (ascii "\n")) := by
  intro h
  have hread : parse (sexpString machString (.atom (ascii "\n"))) = .ok (.atom (ascii "n")) := rfl
  have hparse := h.inverts
  rw [hread] at hparse
  have hatom := Node.atom.inj (Except.ok.inj hparse)
  exact absurd hatom (by decide)

end Stanli.Mir.Sexp
