import Mathlib.Data.List.TakeWhile
import Stanli.Mir.Finalize
import Stanli.Mir.SexpText
import Stanli.Mir.Tree

namespace Stanli.Mir

/-! ### References to user functions

What overload resolution is for: every reference to a user function, wherever it stands, names the one
definition that has its name and its argument types. `Program.resolved` is the program in which each
overload has a name of its own and every reference is renamed with its definition. -/

/-- A call of a user function, or a function passed by name. -/
def Expr.isReference (e : Expr) : Bool :=
  (decide (e.kind = .funApp) && decide (e.fnLib = .userDefined)) ||
    (decide (e.kind = .var) && (ascii "(UFun ").isPrefixOf e.raw)

/-- The argument types of a reference. -/
def Expr.referenceViews (e : Expr) : Checked (List UnsizedView) :=
  siteViews (decide (e.kind = .funApp) && decide (e.fnLib = .userDefined)) e

/-- The expressions of a statement, wherever they stand. -/
def Stmt.expressions (s : Stmt) : List Expr :=
  s.operands ++ [s.target] ++ s.transforms.flatMap Transform.args

/-- The statements of a program, wherever they stand. -/
def Program.HasStmt (p : Program) (s : Stmt) : Prop := ∃ r ∈ p.stmts, Stmt.Within s r

/-- The expression nodes of a program, wherever they stand. -/
def Program.HasExpr (p : Program) (x : Expr) : Prop :=
  (∃ input ∈ p.inputVars, ∃ e ∈ input.2.dims, Expr.Within x e) ∨
    ∃ s, p.HasStmt s ∧ ∃ e ∈ s.expressions, Expr.Within x e

/-- The program refers somewhere to the function of this name with these argument types. -/
inductive Program.RefersTo (p : Program) : Bytes → List UnsizedView → Prop
  | expr {x : Expr} {views : List UnsizedView} (hx : p.HasExpr x) (href : x.isReference = true)
      (hviews : x.referenceViews = .ok views) : RefersTo p x.name views
  | stmt {s : Stmt} {opened name rest : Bytes} (hs : p.HasStmt s)
      (hname : userDefinedStatementName s.fnName = some (opened, name, rest)) :
      RefersTo p name (s.fnArgs.map Expr.unsized)

/-- A reference matches exactly one definition. -/
def Program.Matches (p : Program) (name : Bytes) (views : List UnsizedView) : Prop :=
  ∃ f, p.funDefs.filter (fun f => f.name == name && decide (f.argViews = views)) = [f]

/-- Every reference has argument types, and matches exactly one definition by them. -/
structure Program.Matched (p : Program) : Prop where
  typed : ∀ x, p.HasExpr x → x.isReference = true → ∃ views, x.referenceViews = .ok views
  refers : ∀ name views, p.RefersTo name views → p.Matches name views

/-! ### The program with its overloads apart -/

section Resolved

variable (shared : List Bytes)

/-- The name of the definition with this name and these argument types, where `shared` are the names
that several definitions share. -/
def internalName (name : Bytes) (views : List UnsizedView) : Bytes :=
  if shared.contains name = true then name ++ signature views else name

def resolvedNode (e : Expr) : Expr :=
  if e.isReference = true then
    match e.referenceViews with
    | .error _ => e
    | .ok views => { e with name := internalName shared e.name views }
  else e

def resolvedExpr (e : Expr) : Expr := e.mapNodes (resolvedNode shared)

def resolvedSized (type : SizedType) : SizedType :=
  { type with dims := type.dims.map (resolvedExpr shared) }

def resolvedTransform (t : Transform) : Transform :=
  { t with args := t.args.map (resolvedExpr shared) }

def resolvedStatementName (s : Stmt) : Bytes :=
  match userDefinedStatementName s.fnName with
  | none => s.fnName
  | some (opened, name, rest) =>
    opened ++ internalName shared name (s.fnArgs.map Expr.unsized) ++ rest

/-- A statement with the references of all its expressions renamed. -/
def resolvedStmt (s : Stmt) : Stmt :=
  { s with
    fnName := resolvedStatementName shared s
    init := resolvedExpr shared s.init, rhs := resolvedExpr shared s.rhs
    target := resolvedExpr shared s.target, lower := resolvedExpr shared s.lower
    upper := resolvedExpr shared s.upper, cond := resolvedExpr shared s.cond
    readDims := s.readDims.map (resolvedExpr shared), lhsIdx := s.lhsIdx.map (resolvedExpr shared)
    fnArgs := s.fnArgs.map (resolvedExpr shared), declType := resolvedSized shared s.declType
    readTransform := s.readTransform.map (resolvedTransform shared)
    checkTransform := s.checkTransform.map (resolvedTransform shared)
    writeTransform := s.writeTransform.map (resolvedTransform shared) }

end Resolved

/-- The functions of a program under their internal names, every expression outside the statements with
its references renamed, and every statement rewritten by `g`. -/
def Program.resolvedBy (g : Stmt → Stmt) (p : Program) : Program :=
  let shared := sharedNames p.funDefs
  { p with
    inputVars := p.inputVars.map fun input => (input.1, resolvedSized shared input.2)
    prepareData := p.prepareData.map (Stmt.mapNodes g)
    logProb := p.logProb.map (Stmt.mapNodes g)
    generateQuantities := p.generateQuantities.map (Stmt.mapNodes g)
    transformInits := p.transformInits.map (Stmt.mapNodes g)
    funDefs := p.funDefs.map fun f =>
      { f with name := internalName shared f.name f.argViews, body := f.body.map (Stmt.mapNodes g) } }

/-- The program in which every overload has its own name and every reference names its overload. -/
def Program.resolved (p : Program) : Program := p.resolvedBy (resolvedStmt (sharedNames p.funDefs))

/-- `p'` is `p` with its overloads resolved: the functions of `p'` have different names, every reference
of `p'` names the definition with exactly its argument types, and `p'` is `p` with each overload and
each reference to one renamed, and nothing else. -/
structure OverloadsExact (p p' : Program) : Prop where
  distinct : (p'.funDefs.map FunDef.name).Nodup
  exact_ : ∀ name views, p'.RefersTo name views → p'.Matches name views
  renamed : p' = p.resolved

/-! ### When resolution is exact -/

/-- No two definitions of one name have the same argument types. -/
def Program.Distinguishable (p : Program) : Prop :=
  p.funDefs.Pairwise fun f g => f.name = g.name → f.argViews ≠ g.argViews

/-- No definition has the name that another one gets with its signature. -/
def Program.NamesApart (p : Program) : Prop :=
  p.funDefs.Pairwise fun f g => f.name ≠ g.name →
    internalName (sharedNames p.funDefs) f.name f.argViews ≠
      internalName (sharedNames p.funDefs) g.name g.argViews

/-- No transform of a write refers to an overloaded function. -/
def Program.WritesPlain (p : Program) : Prop :=
  ∀ s, p.HasStmt s → ∀ t, s.writeTransform = some t → ∀ e ∈ t.args, ∀ x, Expr.Within x e →
    x.isReference = true → (sharedNames p.funDefs).contains x.name = false

/-! ### Signatures

Different argument types have different signatures: the suffix of a type holds neither a comma nor a
parenthesis, and its leaf ends where its dimensions begin. -/

/-- The name of a leaf in a signature. -/
def leafName : UnsizedLeaf → Bytes
  | .int => ascii "int"
  | .real => ascii "real"
  | .complex => ascii "complex"
  | .vector => ascii "vector"
  | .rowVector => ascii "row_vector"
  | .matrix => ascii "matrix"
  | .unknown => ascii "?"

theorem viewSuffix_eq (view : UnsizedView) :
    viewSuffix view =
      leafName view.leaf ++ (List.replicate view.depth.toNat (ascii "[]")).flatten := by
  obtain ⟨depth, leaf⟩ := view
  cases leaf <;> rfl

theorem leafName_injective : Function.Injective leafName := by
  intro a b h
  cases a <;> cases b <;> first | rfl | exact absurd h (by decide)

/-- A leaf holds no bracket, no comma and no parenthesis. -/
theorem not_mem_leafName (leaf : UnsizedLeaf) :
    91 ∉ leafName leaf ∧ 44 ∉ leafName leaf ∧ leafName leaf ≠ [] := by
  cases leaf <;> decide

theorem mem_dims {depth : ℕ} {c : UInt8} (h : c ∈ (List.replicate depth (ascii "[]")).flatten) :
    c = 91 ∨ c = 93 := by
  obtain ⟨pair, hpair, hc⟩ := List.mem_flatten.1 h
  rw [List.eq_of_mem_replicate hpair] at hc
  simpa [ascii] using hc

theorem takeWhile_viewSuffix (view : UnsizedView) :
    (viewSuffix view).takeWhile (fun c => c != 91) = leafName view.leaf := by
  rw [viewSuffix_eq, List.takeWhile_append_of_pos]
  · cases view.depth.toNat with
    | zero => simp
    | succ n => simp [List.replicate_succ, ascii]
  · intro c hc
    have hbracket : c ≠ 91 := by
      rintro rfl
      exact (not_mem_leafName view.leaf).1 hc
    simpa using hbracket

theorem viewSuffix_injective : Function.Injective viewSuffix := by
  intro v w h
  have hleaf : v.leaf = w.leaf := by
    apply leafName_injective
    rw [← takeWhile_viewSuffix, ← takeWhile_viewSuffix, h]
  have hdepth : v.depth = w.depth := by
    have hlength := congrArg List.length h
    rw [viewSuffix_eq, viewSuffix_eq, hleaf] at hlength
    apply UInt8.toNat.inj
    simpa [ascii] using hlength
  obtain ⟨depth, leaf⟩ := v
  obtain ⟨depth', leaf'⟩ := w
  simp only at hleaf hdepth
  rw [hleaf, hdepth]

theorem viewSuffix_ne_nil (view : UnsizedView) : viewSuffix view ≠ [] := by
  rw [viewSuffix_eq]
  exact List.append_ne_nil_of_left_ne_nil (not_mem_leafName view.leaf).2.2 _

theorem comma_not_mem_viewSuffix (view : UnsizedView) : 44 ∉ viewSuffix view := by
  rw [viewSuffix_eq, List.mem_append]
  rintro (h | h)
  · exact (not_mem_leafName view.leaf).2.1 h
  · rcases mem_dims h with h | h <;> exact absurd h (by decide)

theorem joined_ne_nil (view : UnsizedView) (views : List UnsizedView) :
    (List.intersperse (ascii ",") ((view :: views).map viewSuffix)).flatten ≠ [] := by
  intro h
  have hnil := List.flatten_eq_nil_iff.1 h (viewSuffix view) (by cases views <;> simp)
  exact viewSuffix_ne_nil view hnil

theorem signature_injective : Function.Injective signature := by
  intro vs ws h
  simp only [signature, List.append_assoc, List.append_cancel_left_eq,
    List.append_cancel_right_eq] at h
  cases vs with
  | nil =>
    cases ws with
    | nil => rfl
    | cons w ws => exact absurd h.symm (joined_ne_nil w ws)
  | cons v vs =>
    cases ws with
    | nil => exact absurd h (joined_ne_nil v vs)
    | cons w ws =>
      have hsplit : ∀ view : UnsizedView, ∀ views : List UnsizedView,
          List.splitOn 44
              (List.intersperse (ascii ",") ((view :: views).map viewSuffix)).flatten =
            (view :: views).map viewSuffix := by
        intro view views
        apply List.splitOn_intercalate (44 : UInt8)
        · intro suffix hsuffix
          obtain ⟨view', _, rfl⟩ := List.mem_map.1 hsuffix
          exact comma_not_mem_viewSuffix view'
        · simp
      apply List.map_injective_iff.2 viewSuffix_injective
      rw [← hsplit v vs, ← hsplit w ws, h]

/-! ### Internal names -/

theorem mem_sharedNames {fns : List FunDef} {name : Bytes} :
    name ∈ sharedNames fns ↔ 2 ≤ (fns.filter fun f => f.name == name).length := by
  rw [sharedNames, List.mem_insertionSort, List.mem_filter, List.mem_dedup, decide_eq_true_iff]
  constructor
  · exact fun h => h.2
  · intro h
    refine ⟨?_, h⟩
    obtain ⟨f, hf⟩ := List.exists_mem_of_length_pos (Nat.lt_of_lt_of_le (by decide) h)
    obtain ⟨hmem, hname⟩ := List.mem_filter.1 hf
    exact List.mem_map.2 ⟨f, hmem, by simpa using hname⟩

theorem FunDef.renamed_eq (shared : List Bytes) (f : FunDef) :
    f.renamed shared = { f with name := internalName shared f.name f.argViews } := by
  unfold FunDef.renamed internalName
  split <;> rfl

/-- A name that no other definition has is its own internal name. -/
theorem internalName_of_not_shared {shared : List Bytes} {name : Bytes} {views : List UnsizedView}
    (h : shared.contains name = false) : internalName shared name views = name := by
  rw [internalName, h]
  rfl

theorem internalName_of_shared {shared : List Bytes} {name : Bytes} {views : List UnsizedView}
    (h : shared.contains name = true) :
    internalName shared name views = name ++ signature views := by
  rw [internalName, if_pos h]

theorem internalName_injective (shared : List Bytes) {name : Bytes} {vs ws : List UnsizedView}
    (hshared : shared.contains name = true)
    (h : internalName shared name vs = internalName shared name ws) : vs = ws := by
  rw [internalName_of_shared hshared, internalName_of_shared hshared] at h
  exact signature_injective (List.append_cancel_left h)

/-! ### The table of overloads -/

theorem indistinguishable_eq_false {fns : List FunDef} :
    indistinguishable fns = false ↔ fns.Pairwise fun f g => f.argViews ≠ g.argViews := by
  induction fns with
  | nil => simp [indistinguishable]
  | cons f fns ih =>
    rw [indistinguishable, Bool.or_eq_false_iff, ih, List.pairwise_cons]
    simp

/-- The table entry of a shared name. -/
def overloadEntry (fns : List FunDef) (name : Bytes) : Bytes × List FunDef :=
  (name, (fns.filter fun f => f.name == name).map fun f => f.renamed [name])

theorem mapM_pure_of_forall {m : Type → Type} [Monad m] [LawfulMonad m] {α β : Type} {f : α → m β}
    {g : α → β} {as : List α} (h : ∀ a ∈ as, f a = pure (g a)) : as.mapM f = pure (as.map g) := by
  induction as with
  | nil => rfl
  | cons a as ih =>
    rw [List.mapM_cons, h a (List.mem_cons_self ..), pure_bind,
      ih fun b hb => h b (List.mem_cons_of_mem _ hb), pure_bind, List.map_cons]

/-- Definitions of one name keep their argument types apart. -/
theorem pairwise_filter_name {fns : List FunDef}
    (h : fns.Pairwise fun f g => f.name = g.name → f.argViews ≠ g.argViews) (name : Bytes) :
    (fns.filter fun f => f.name == name).Pairwise fun f g => f.argViews ≠ g.argViews := by
  apply (h.filter _).imp_of_mem
  intro f g hf hg hne
  apply hne
  have hfname : f.name = name := by simpa using (List.mem_filter.1 hf).2
  have hgname : g.name = name := by simpa using (List.mem_filter.1 hg).2
  rw [hfname, hgname]

theorem overloadTable_eq {fns : List FunDef}
    (h : fns.Pairwise fun f g => f.name = g.name → f.argViews ≠ g.argViews) :
    overloadTable fns = .ok ((sharedNames fns).map (overloadEntry fns)) := by
  apply mapM_pure_of_forall
  intro name _
  dsimp only
  rw [indistinguishable_eq_false.2 (pairwise_filter_name h name)]
  rfl

/-- The table holds the shared names, and no others. -/
theorem findOverloads_eq (fns : List FunDef) (name : Bytes) :
    findOverloads ((sharedNames fns).map (overloadEntry fns)) name =
      if (sharedNames fns).contains name = true then some (overloadEntry fns name).2 else none := by
  rw [findOverloads, List.find?_map]
  have hpred : (fun entry : Bytes × List FunDef => entry.1 == name) ∘ overloadEntry fns =
      fun other => other == name := rfl
  rw [hpred]
  cases hfind : (sharedNames fns).find? (fun other => other == name) with
  | some other =>
    have hother : other = name := by simpa using List.find?_some hfind
    rw [if_pos (List.contains_iff_mem.2 (hother ▸ List.mem_of_find?_eq_some hfind)), hother]
    rfl
  | none =>
    rw [if_neg]
    · rfl
    · intro hmem
      have hne := List.find?_eq_none.1 hfind name (List.contains_iff_mem.1 hmem)
      exact hne (beq_self_eq_true name)

/-- Among the definitions of a shared name, the one that a reference matches gives it its name. -/
theorem resolveOverload_eq {fns : List FunDef} {name : Bytes} {views : List UnsizedView}
    (h : ∃ f, fns.filter (fun f => f.name == name && decide (f.argViews = views)) = [f]) :
    resolveOverload name (overloadEntry fns name).2 views = .ok (name ++ signature views) := by
  obtain ⟨f, hf⟩ := h
  have hmem : f ∈ fns.filter (fun f => f.name == name && decide (f.argViews = views)) := by
    rw [hf]
    exact List.mem_singleton.2 rfl
  have hbool := (List.mem_filter.1 hmem).2
  rw [Bool.and_eq_true, beq_iff_eq, decide_eq_true_iff] at hbool
  obtain ⟨hname, hviews⟩ := hbool
  have hfilter : ((overloadEntry fns name).2.filter fun f => decide (f.argViews = views)) =
      [f.renamed [name]] := by
    rw [overloadEntry, List.filter_map, List.filter_filter]
    have hpred : (fun f : FunDef => ((fun f => decide (f.argViews = views)) ∘
          fun f => FunDef.renamed [name] f) f && f.name == name) =
        fun f => f.name == name && decide (f.argViews = views) := by
      funext f'
      rw [Bool.and_comm, Function.comp_apply, FunDef.renamed_eq]
    rw [hpred, hf]
    rfl
  rw [resolveOverload, hfilter]
  dsimp only
  rw [FunDef.renamed_eq, hname, hviews, internalName_of_shared (by simp)]

/-! ### Statement names -/

/-- A statement name is split at the first blank after the function's name. -/
theorem userDefinedStatementName_eq_some {fnName opened name rest : Bytes} :
    userDefinedStatementName fnName = some (opened, name, rest) ↔
      opened = ascii "(UserDefined " ∧ name ≠ [] ∧ 32 ∉ name ∧ (∃ tail, rest = 32 :: tail) ∧
        fnName = opened ++ name ++ rest := by
  unfold userDefinedStatementName
  dsimp only
  constructor
  · intro h
    split at h
    · rename_i hprefix
      split at h
      · cases h
      · rename_i hname
        rw [not_or] at hname
        obtain ⟨hlength, hne⟩ := hname
        obtain ⟨body, hbody⟩ := List.isPrefixOf_iff_prefix.1 hprefix
        rw [Option.some.injEq, Prod.mk.injEq, Prod.mk.injEq] at h
        obtain ⟨rfl, rfl, rfl⟩ := h
        rw [← hbody, List.drop_left] at hlength hne ⊢
        rw [Sexp.drop_length_takeWhile]
        refine ⟨rfl, hne, fun hmem => ?_, ?_, ?_⟩
        · simpa using List.mem_takeWhile_imp hmem
        · cases hrest : body.dropWhile fun c => c != 32 with
          | nil =>
            rw [List.dropWhile_eq_nil_iff] at hrest
            rw [List.takeWhile_eq_self_iff.2 hrest] at hlength
            exact absurd rfl hlength
          | cons c tail =>
            have hhead := List.head?_dropWhile_not (fun c => c != 32) body
            rw [hrest] at hhead
            exact ⟨tail, by simpa using hhead⟩
        · rw [List.append_assoc, List.takeWhile_append_dropWhile]
    · cases h
  · rintro ⟨rfl, hne, hmem, ⟨tail, rfl⟩, rfl⟩
    have htake : (name ++ 32 :: tail).takeWhile (fun c => c != 32) = name := by
      rw [List.takeWhile_append_of_pos]
      · simp
      · intro c hc
        have hblank : c ≠ 32 := by
          rintro rfl
          exact hmem hc
        simpa using hblank
    rw [List.append_assoc, if_pos (List.isPrefixOf_iff_prefix.2 (List.prefix_append ..)),
      List.drop_left, htake, List.drop_left, if_neg]
    rw [not_or]
    exact ⟨by simp, hne⟩

theorem mem_intersperse {α : Type} {sep a : α} {as : List α} (h : a ∈ as.intersperse sep) :
    a ∈ as ∨ a = sep := by
  induction as with
  | nil => cases h
  | cons b as ih =>
    cases as with
    | nil => exact .inl h
    | cons c as =>
      rw [List.intersperse_cons_cons, List.mem_cons, List.mem_cons] at h
      rcases h with rfl | rfl | h
      · exact .inl (List.mem_cons_self ..)
      · exact .inr rfl
      · exact (ih h).imp_left (List.mem_cons_of_mem _)

/-- No signature holds a blank. -/
theorem blank_not_mem_signature (views : List UnsizedView) : 32 ∉ signature views := by
  have hleaf : ∀ leaf, 32 ∉ leafName leaf := by
    intro leaf
    cases leaf <;> decide
  have hsuffix : ∀ view, 32 ∉ viewSuffix view := by
    intro view
    rw [viewSuffix_eq, List.mem_append]
    rintro (h | h)
    · exact hleaf view.leaf h
    · rcases mem_dims h with h | h <;> exact absurd h (by decide)
  intro h
  rw [signature, List.mem_append, List.mem_append] at h
  rcases h with (h | h) | h
  · exact absurd h (by decide)
  · obtain ⟨part, hpart, hc⟩ := List.mem_flatten.1 h
    rcases mem_intersperse hpart with hpart | rfl
    · obtain ⟨view, _, rfl⟩ := List.mem_map.1 hpart
      exact hsuffix view hc
    · exact absurd hc (by decide)
  · exact absurd h (by decide)

/-- The name in a statement's call is resolved in its place. -/
theorem userDefinedStatementName_resolved {shared : List Bytes} {views : List UnsizedView}
    {fnName opened name rest : Bytes}
    (h : userDefinedStatementName fnName = some (opened, name, rest)) :
    userDefinedStatementName (opened ++ internalName shared name views ++ rest) =
      some (opened, internalName shared name views, rest) := by
  obtain ⟨hopened, hne, hmem, htail, _⟩ := userDefinedStatementName_eq_some.1 h
  apply userDefinedStatementName_eq_some.2
  refine ⟨hopened, ?_, ?_, htail, rfl⟩
  · unfold internalName
    split
    · exact List.append_ne_nil_of_left_ne_nil hne _
    · exact hne
  · unfold internalName
    split
    · rw [List.mem_append, not_or]
      exact ⟨hmem, blank_not_mem_signature views⟩
    · exact hmem

end Stanli.Mir
