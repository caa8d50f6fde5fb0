import Stanli.Mir.ShapeSound
import Stanli.PortableMir.RoundTrip

namespace Stanli.PortableMir

open Mir

/-! ### Accepting a document

`read_portable_v2_program` in full: decode, validate the shape, finalize. -/

/-- Why a document is rejected. -/
inductive AcceptError
  | read (error : ReadError)
  | mir (error : MirError)

def liftRead {α : Type} : Except ReadError α → Except AcceptError α
  | .error e => .error (.read e)
  | .ok a => .ok a

def liftMir {α : Type} : Checked α → Except AcceptError α
  | .error e => .error (.mir e)
  | .ok a => .ok a

/-- `read_portable_v2_program`. The s-expressions in a document nest no deeper than the document. -/
def readPortableV2Program (T : Target) (H : Host) (R : Registry) (bytes : Bytes) :
    Except AcceptError Program := do
  let p ← liftRead (decode T bytes)
  liftMir (validateProgramShape R p)
  liftMir (finalizeProgram { H with nestingLimit := T.nestingLimit } p)

variable {T : Target} {H : Host} {R : Registry} {bytes : Bytes}

theorem readPortableV2Program_eq_ok {q : Program} :
    readPortableV2Program T H R bytes = .ok q ↔ ∃ p, decode T bytes = .ok p ∧
      validateProgramShape R p = .ok () ∧
      finalizeProgram { H with nestingLimit := T.nestingLimit } p = .ok q := by
  unfold readPortableV2Program
  cases hd : decode T bytes with
  | error e => simp [liftRead, bind, Except.bind]
  | ok p =>
    cases hv : validateProgramShape R p with
    | error e => simp [liftRead, liftMir, hv, bind, Except.bind]
    | ok u =>
      cases hf : finalizeProgram { H with nestingLimit := T.nestingLimit } p with
      | error e => simp [liftRead, liftMir, hv, hf, bind, Except.bind]
      | ok q' => simp [liftRead, liftMir, hv, hf, bind, Except.bind]

theorem shaped_iff_covered {p q : Program} (hp : decode T bytes = .ok p)
    (hq : readPortableV2Program T H R bytes = .ok q) :
    ProgramShaped R q ↔ ProgramCovered R { H with nestingLimit := T.nestingLimit } p := by
  obtain ⟨p', hp', hvalid, hfinal⟩ := readPortableV2Program_eq_ok.1 hq
  obtain rfl : p = p' := Except.ok.inj (hp.symm.trans hp')
  obtain ⟨q', hrewrite, hfinal⟩ := bind_eq_ok_iff.1 hfinal
  obtain ⟨-, hfinal⟩ := checked_seq_eq_ok.1 hfinal
  obtain rfl : q' = q := Except.ok.inj hfinal
  exact (shaped_rewriteProgram (programValidated_of_validate hvalid) hrewrite).symm

/-- The program of an accepted document is well shaped exactly when the decoded program has nothing
where the shape pass does not look: no transform of a write that breaks a rule, no target spelled as
an s-expression that does, and no call whose name, once unmangled, has a rule it does not meet. -/
theorem accepted_shaped_iff {q : Program} (hq : readPortableV2Program T H R bytes = .ok q) :
    ∃ p, decode T bytes = .ok p ∧
      (ProgramShaped R q ↔ ProgramCovered R { H with nestingLimit := T.nestingLimit } p) := by
  obtain ⟨p, hp, -, -⟩ := readPortableV2Program_eq_ok.1 hq
  exact ⟨p, hp, shaped_iff_covered hp hq⟩

/-! ### A document that evades the shape pass -/

/-- `FnWriteParam` under the transform `Lower`, whose bound is a conditional without operands. -/
def hollowWrite : WireStmt :=
  { kind := .nrFunApp, fnName := ascii "FnWriteParam",
    checkTransform := some { kind := .lower, args := [{ kind := .ternaryIf }], raw := [] } }

/-- A program that only writes a parameter back. -/
def hollowProgram : WireProgram := { transformInits := [hollowWrite] }

/-- A platform with room for it. -/
def smallTarget : Target := ⟨4, fun _ => 1, fun _ => Nat.one_pos⟩

/-- A platform that reads no numbers from s-expressions. -/
def plainHost : Host := ⟨4, fun _ => none, fun _ => none, fun _ => {}⟩

/-- The document that encodes it. -/
def hollowDocument : Bytes :=
  ascii ("STANLI2:AAAAAAAAAAAAAAAAAAAAAAAAAAAAAAAAAQAAAAgMAAAARm5Xcml0" ++
    "ZVBhcmFtAAAAAAEBAQAAAAcAAAAAAAAAAAAAAAAAAAAAAAAAAAAAAAAAAAAA")

theorem encode_hollowProgram : encode hollowProgram = .ok hollowDocument := by
  decide +kernel

theorem hollowProgram_withinLimits : hollowProgram.WithinLimits smallTarget where
  usage := by
    constructor <;> decide +kernel
  arity := by
    intro fn hfn
    cases hfn

theorem decode_hollowDocument :
    decode smallTarget hollowDocument = .ok (programMeaning smallTarget hollowProgram) :=
  decode_encode hollowProgram_withinLimits encode_hollowProgram

/-- The reader accepts it. -/
theorem hollowDocument_accepted : ∃ q,
    readPortableV2Program smallTarget plainHost (fun _ => []) hollowDocument = .ok q := by
  have hvalid : validateProgramShape (fun _ => []) (programMeaning smallTarget hollowProgram)
      = .ok () := by
    decide +kernel
  have hfinal : (finalizeProgram { plainHost with nestingLimit := smallTarget.nestingLimit }
      (programMeaning smallTarget hollowProgram)).toOption.isSome = true := by
    decide +kernel
  obtain ⟨q, hq⟩ := Option.isSome_iff_exists.1 hfinal
  cases hf : finalizeProgram { plainHost with nestingLimit := smallTarget.nestingLimit }
      (programMeaning smallTarget hollowProgram) with
  | error e =>
    rw [hf] at hq
    cases hq
  | ok q' =>
    exact ⟨q', readPortableV2Program_eq_ok.2 ⟨_, decode_hollowDocument, hvalid, hf⟩⟩

/-- The bound of the write. -/
def hollowBound : Expr := exprMeaning { kind := .ternaryIf }

theorem hollowBound_not_shaped : ¬ NodeShaped R (unmangle hollowBound) := by
  intro h
  have harity : validateArity R (unmangle hollowBound) = malformed (ascii "TernaryIf expression arity") :=
    rfl
  have := h.arity
  rw [harity] at this
  cases this

/-- Nothing in the shape pass sees the transform of a write. -/
theorem hollowProgram_not_covered :
    ¬ ProgramCovered R H (programMeaning smallTarget hollowProgram) := by
  intro h
  have hmem : stmtMeaning hollowWrite ∈ (programMeaning smallTarget hollowProgram).stmts :=
    List.mem_append_left _ (List.mem_append_right _ List.mem_cons_self)
  have hstmt : StmtCovered R H (stmtMeaning hollowWrite) := (Stmt.all_iff.1 (h.stmts _ hmem)).1
  have hwrite := hstmt.write (transformMeaning ⟨.lower, [{ kind := .ternaryIf }], []⟩) rfl
  have hbound : ExprShaped R (unmangle hollowBound) := hwrite.args _ List.mem_cons_self
  exact hollowBound_not_shaped (exprShaped_iff.1 hbound).1

/-- Accepting a document does not make its program well shaped. -/
theorem accepted_not_shaped : ¬ ∀ (T : Target) (H : Host) (R : Registry) (bytes : Bytes)
    (q : Program), readPortableV2Program T H R bytes = .ok q → ProgramShaped R q := by
  intro h
  obtain ⟨q, hq⟩ := hollowDocument_accepted
  have hshaped := h _ _ _ _ _ hq
  exact hollowProgram_not_covered ((shaped_iff_covered decode_hollowDocument hq).1 hshaped)

theorem hollowDocument_shaped_iff : ∃ p q, decode smallTarget hollowDocument = .ok p ∧
    (ProgramShaped (fun _ => []) q ↔
      ProgramCovered (fun _ => []) { plainHost with nestingLimit := smallTarget.nestingLimit } p) := by
  obtain ⟨q, hq⟩ := hollowDocument_accepted
  obtain ⟨p, hp, hiff⟩ := accepted_shaped_iff hq
  exact ⟨p, q, hp, hiff⟩

end Stanli.PortableMir
