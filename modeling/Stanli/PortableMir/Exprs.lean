import Stanli.PortableMir.Lists

namespace Stanli.PortableMir

/-! ### Expressions and types

For each record: reading the bytes that the encoder emits gives its meaning, and whatever is read
is the meaning of some record whose encoding was taken. -/

section

variable {T : Target} {fuel : ℕ}

theorem read_bind {α β : Type} {m : Read α} {f : α → Read β} {a b : Bytes} {u v : Usage} {x : α}
    {y : β} (hm : Delivers (Fueled T fuel) m ⟨a, u⟩ x)
    (hf : Delivers (Fueled T fuel) (f x) ⟨b, v⟩ y) :
    Delivers (Fueled T fuel) (m >>= f) ⟨a ++ b, u + v⟩ y :=
  (fueled_splitting T fuel).bind hm hf

theorem read_map {α β : Type} {m : Read α} {p : Portion} {x : α} (g : α → β)
    (hm : Delivers (Fueled T fuel) m p x) :
    Delivers (Fueled T fuel) (m >>= fun v => pure (g v)) p (g x) :=
  (fueled_splitting T fuel).map g hm

theorem read_tag {α β : Type} {values : List α} {diagnostic : String} {tag : UInt8} {v : α}
    (htag : values[tag.toNat]? = some v) {f : α → Read β} {b : Bytes} {u : Usage} {w : β}
    (hf : Delivers (Fueled T fuel) (f v) ⟨b, u⟩ w) :
    Delivers (Fueled T fuel) (u8 >>= fun tag => readTag tag values diagnostic >>= f)
      ⟨tag :: b, scalarUsage + u⟩ w :=
  tag_delivers htag hf

theorem read_tag_pure {α β : Type} {values : List α} {diagnostic : String} {tag : UInt8} {v : α}
    (htag : values[tag.toNat]? = some v) (g : α → β) :
    Delivers (Fueled T fuel)
      (u8 >>= fun tag => readTag tag values diagnostic >>= fun v => pure (g v))
      ⟨[tag], scalarUsage⟩ (g v) := by
  have h := @tag_delivers T fuel α β values diagnostic tag v htag (fun v => pure (g v)) 0 (g v)
    ((fueled_splitting T fuel).pure (g v))
  rwa [add_zero] at h

/-- A list that is read by its element's reader. -/
theorem spelled_list_delivers {W V : Type} {emit : W → Emit} {meaning : W → V} {usage : W → Usage}
    {read : Read V} {item : Item}
    (hitem : ∀ w b, emit w = .ok b → Delivers (Fueled T fuel) read ⟨b, usage w⟩ (meaning w))
    (hpos : ∀ w b, emit w = .ok b → 1 ≤ b.length) {ws : List W} {b : Bytes}
    (h : addV2List emit ws = .ok b) :
    Delivers (Fueled T fuel) (list T item read) ⟨b, listUsage T item (ws.map usage)⟩
      (ws.map meaning) :=
  list_delivers h (fun w _ => hitem w) hpos

theorem append_pos_left {x y : Emit} {b : Bytes} (hx : ∀ a, x = .ok a → 1 ≤ a.length)
    (h : x ++ y = .ok b) : 1 ≤ b.length := by
  obtain ⟨a, c, ha, -, rfl⟩ := emit_append_eq_ok.1 h
  have := hx a ha
  rw [List.length_append]
  omega

theorem addV2String_pos {v b : Bytes} (h : addV2String v = .ok b) : 1 ≤ b.length := by
  obtain ⟨-, -, rfl⟩ := addV2String_eq_ok.1 h
  rw [List.length_append, length_littleEndian]
  omega

/-- A tag table names each value once. -/
theorem tag_unique {α : Type} {values : List α} (hnodup : values.Nodup) {tag tag' : UInt8} {v : α}
    (h : values[tag.toNat]? = some v) (h' : values[tag'.toNat]? = some v) : tag = tag' := by
  have hlt : tag.toNat < values.length := (List.getElem?_eq_some_iff.1 h).1
  exact UInt8.toNat_inj.1 ((List.getElem?_inj hlt hnodup).1 (h.trans h'.symm))

/-! ### Views -/

def kLeafTag : Mir.UnsizedLeaf → UInt8
  | .unknown => 0
  | .int => 1
  | .real => 2
  | .complex => 3
  | .vector => 4
  | .rowVector => 5
  | .matrix => 6

theorem leaf_tag (leaf : Mir.UnsizedLeaf) : addU8 (v2LeafTag leaf) = .ok [kLeafTag leaf] ∧
    kLeafTags[(kLeafTag leaf).toNat]? = some leaf := by
  cases leaf <;> exact ⟨rfl, rfl⟩

theorem addV2View_eq_ok {view : WireView} {b : Bytes} :
    addV2View view = .ok b ↔
      0 ≤ view.depth ∧ view.depth ≤ 255 ∧ b = [UInt8.ofNat view.depth.toNat, kLeafTag view.leaf] := by
  rw [addV2View, emit_append_eq_ok, (leaf_tag view.leaf).1]
  constructor
  · rintro ⟨a, c, ha, hc, rfl⟩
    cases hc
    obtain ⟨h0, h1, rfl⟩ := addU8_eq_ok.1 ha
    exact ⟨h0, h1, rfl⟩
  · rintro ⟨h0, h1, rfl⟩
    exact ⟨_, _, addU8_eq_ok.2 ⟨h0, h1, rfl⟩, rfl, rfl⟩

theorem view_delivers {view : WireView} {b : Bytes} (h : addV2View view = .ok b) :
    Delivers (Fueled T fuel) readView ⟨b, viewUsage⟩ view.meaning := by
  obtain ⟨-, -, rfl⟩ := addV2View_eq_ok.1 h
  refine read_bind (a := [_]) (b := [_]) (u8_delivers _) ?_
  exact read_tag_pure (leaf_tag view.leaf).2 fun leaf =>
    ({ depth := UInt8.ofNat view.depth.toNat, leaf } : Mir.UnsizedView)

theorem view_gathers :
    Gathers (Consumes T) readView (Spells addV2View WireView.meaning fun _ => viewUsage) := by
  refine (consumes_joining T).bind u8_gathers ?_
  rintro depth _ rfl
  refine tag_gathers fun tag leaf htag => (consumes_joining T).pure ?_
  have hlt := UInt8.toNat_lt depth
  refine ⟨⟨depth.toNat, leaf⟩, ?_, ?_, ?_⟩
  · simp [WireView.meaning]
  · rw [addV2View_eq_ok, tag_unique (by decide) htag (leaf_tag leaf).2]
    refine ⟨Int.natCast_nonneg _, ?_, by simp⟩
    change (depth.toNat : ℤ) ≤ 255
    omega
  · rfl

/-! ### The common suffix -/

theorem meta_delivers {expr : WireExpr} {b : Bytes} (h : addV2Meta expr = .ok b)
    (value : Mir.Expr) :
    Delivers (Fueled T fuel) (readMeta value) ⟨b, metaUsage expr⟩ (withMeta expr value) := by
  simp only [addV2Meta, emit_append_assoc, emit_append_eq_ok] at h
  obtain ⟨_, _, h1, ⟨_, _, h2, ⟨_, _, h3, ⟨_, _, h4, h5, rfl⟩, rfl⟩, rfl⟩, rfl⟩ := h
  simp only [metaUsage, add_assoc]
  refine read_bind (string_delivers h1) (read_bind (view_delivers h2) (read_bind
    (boolean_delivers h3) (read_bind (boolean_delivers h4) ?_)))
  exact read_map _ (string_delivers h5)

theorem meta_gathers (value : Mir.Expr) :
    Gathers (Consumes T) (readMeta value)
      (Spells addV2Meta (fun expr => withMeta expr value) metaUsage) := by
  refine (consumes_joining T).bind string_gathers ?_
  rintro type p1 ⟨h1, u1⟩
  refine (consumes_joining T).bind view_gathers ?_
  rintro _ p2 ⟨unsized, rfl, h2, u2⟩
  refine (consumes_joining T).bind boolean_gathers ?_
  rintro dataOnly p3 ⟨h3, u3⟩
  refine (consumes_joining T).bind boolean_gathers ?_
  rintro promoted p4 ⟨h4, u4⟩
  refine (consumes_joining T).bind string_gathers ?_
  rintro raw p5 ⟨h5, u5⟩
  refine (consumes_joining T).pure ?_
  refine ⟨{ type, unsized, dataOnly, promoted, raw }, rfl, ?_, ?_⟩
  · simp [addV2Meta, h1, h2, h3, h4, h5]
  · simp [metaUsage, u1, u2, u3, u4, u5, add_assoc]

/-! ### Expressions -/

def exprTag : Mir.ExprKind → UInt8
  | .var => 0
  | .litInt => 1
  | .litReal => 2
  | .litStr => 3
  | .funApp => 4
  | .promotion => 5
  | .indexed => 6
  | .ternaryIf => 7
  | .eOr => 8
  | .eAnd => 9
  | .unsupported => 10

theorem exprTag_get (kind : Mir.ExprKind) : kExprTags[(exprTag kind).toNat]? = some kind := by
  cases kind <;> rfl

def libTag : Mir.FnLib → UInt8
  | .stanLib => 0
  | .internal => 1
  | .userDefined => 2

theorem libTag_get (lib : Mir.FnLib) : addU8 (v2LibTag lib) = .ok [libTag lib] ∧
    kLibraryTags[(libTag lib).toNat]? = some lib := by
  cases lib <;> exact ⟨rfl, rfl⟩

/-- What `add_v2_expr` emits between the tag and the suffix. -/
def addExprFields (expr : WireExpr) (args : Emit) : Emit :=
  match expr.kind with
  | .var => addV2String expr.name
  | .litInt => addI32 expr.litI
  | .litReal => addI64Bits expr.lit
  | .litStr => addV2String expr.litS
  | .funApp =>
    addU8 (v2LibTag expr.fnLib) ++ addV2String expr.name ++ addV2Bool expr.fnPropto ++ args
  | .promotion | .indexed | .ternaryIf | .eOr | .eAnd => args
  | .unsupported => .ok []

theorem addV2Expr_parts (expr : WireExpr) :
    addV2Expr expr = .ok [exprTag expr.kind] ++
      (addExprFields expr (addV2List addV2Expr expr.args) ++ addV2Meta expr) := by
  rw [addV2Expr_eq, addV2ExprWith, addExprFields]
  cases expr.kind <;> simp only [emit_append_assoc, emit_nil_append] <;> rfl

theorem addV2Expr_eq_ok {expr : WireExpr} {b : Bytes} :
    addV2Expr expr = .ok b ↔ ∃ b1 b2,
      addExprFields expr (addV2List addV2Expr expr.args) = .ok b1 ∧ addV2Meta expr = .ok b2 ∧
        b = exprTag expr.kind :: (b1 ++ b2) := by
  rw [addV2Expr_parts, emit_append_eq_ok]
  constructor
  · rintro ⟨a, c, ha, hc, rfl⟩
    cases ha
    obtain ⟨b1, b2, h1, h2, rfl⟩ := emit_append_eq_ok.1 hc
    exact ⟨b1, b2, h1, h2, rfl⟩
  · rintro ⟨b1, b2, h1, h2, rfl⟩
    exact ⟨_, _, rfl, emit_append_eq_ok.2 ⟨b1, b2, h1, h2, rfl⟩, rfl⟩

theorem addV2Expr_pos (expr : WireExpr) (b : Bytes) (h : addV2Expr expr = .ok b) :
    1 ≤ b.length := by
  obtain ⟨b1, b2, -, -, rfl⟩ := addV2Expr_eq_ok.1 h
  exact Nat.succ_pos _

theorem exprFields_delivers {expr : WireExpr} {readArgs : Read (List Mir.Expr)} {b : Bytes}
    (hargs : ∀ b, addV2List addV2Expr expr.args = .ok b →
      Delivers (Fueled T fuel) readArgs ⟨b, exprsUsage T expr.args⟩ (expr.args.map exprMeaning))
    (h : addExprFields expr (addV2List addV2Expr expr.args) = .ok b) :
    Delivers (Fueled T fuel) (readExprFields expr.kind readArgs)
      ⟨b, exprFieldsUsage expr (exprsUsage T expr.args)⟩
      (exprFields expr (expr.args.map exprMeaning)) := by
  rw [addExprFields] at h
  rw [exprFieldsUsage, exprFields]
  cases hk : expr.kind <;> simp only [hk] at h ⊢
  case var | litStr => exact read_map _ (string_delivers h)
  case litInt => exact read_map _ (i32_delivers h)
  case litReal => exact read_map _ (f64_delivers h)
  case funApp =>
    simp only [emit_append_assoc, emit_append_eq_ok, (libTag_get expr.fnLib).1] at h
    obtain ⟨_, _, h1, ⟨_, _, h2, ⟨_, _, h3, h4, rfl⟩, rfl⟩, rfl⟩ := h
    cases h1
    simp only [add_assoc, List.cons_append, List.nil_append]
    refine read_tag (libTag_get expr.fnLib).2 (read_bind (string_delivers h2) (read_bind
      (boolean_delivers h3) ?_))
    exact read_map _ (hargs _ h4)
  case promotion | indexed | ternaryIf | eOr | eAnd => exact read_map _ (hargs b h)
  case unsupported =>
    cases h
    exact (fueled_splitting T fuel).pure _

theorem exprUsage_deepen (expr : WireExpr) (b1 b2 : Bytes) :
    (⟨exprTag expr.kind :: (b1 ++ b2), exprUsage T expr⟩ : Portion) =
      Portion.deepen ⟨exprTag expr.kind :: (b1 ++ b2), scalarUsage +
        (exprFieldsUsage expr (exprsUsage T expr.args) + metaUsage expr)⟩ := by
  rw [exprUsage_eq]
  rfl

theorem exprUsage_depth_pos (expr : WireExpr) : 0 < (exprUsage T expr).depth := by
  rw [exprUsage_eq]
  exact Nat.succ_pos _

/-- With enough fuel for the scopes that are left, an encoded expression is read back. -/
theorem exprAt_delivers (fuel : ℕ) : ∀ (expr : WireExpr) (b : Bytes), addV2Expr expr = .ok b →
    Delivers (Fueled T fuel) (readExprAt T fuel) ⟨b, exprUsage T expr⟩ (exprMeaning expr) := by
  induction fuel with
  | zero =>
    rintro expr b - s s' ⟨hfuel, hs⟩
    have hroom := hs.room.depth (exprUsage_depth_pos expr)
    have hpos := exprUsage_depth_pos (T := T) expr
    simp only at hroom
    omega
  | succ fuel ih =>
    intro expr b h
    obtain ⟨b1, b2, h1, h2, rfl⟩ := addV2Expr_eq_ok.1 h
    rw [exprUsage_deepen, exprMeaning_eq]
    refine withDepth_delivers (read_tag (exprTag_get expr.kind) (read_bind ?_ (meta_delivers h2 _)))
    exact exprFields_delivers (fun a ha => spelled_list_delivers ih addV2Expr_pos ha) h1

theorem expr_delivers {expr : WireExpr} {b : Bytes} (h : addV2Expr expr = .ok b) :
    Delivers (Fueled T fuel) (readExpr T) ⟨b, exprUsage T expr⟩ (exprMeaning expr) :=
  (exprAt_delivers _ expr b h).mono fun _ _ _ hs => fueled_full hs.consumes

theorem exprs_delivers {exprs : List WireExpr} {b : Bytes}
    (h : addV2List addV2Expr exprs = .ok b) :
    Delivers (Fueled T fuel) (readExprs T) ⟨b, exprsUsage T exprs⟩ (exprs.map exprMeaning) :=
  spelled_list_delivers (fun _ _ hw => expr_delivers hw) addV2Expr_pos h

/-- The fields of an expression of a kind, as some record spells them. -/
theorem exprFields_gathers {readArgs : Read (List Mir.Expr)} (kind : Mir.ExprKind)
    (hargs : Gathers (Consumes T) readArgs
      (Spells (addV2List addV2Expr) (List.map exprMeaning) (exprsUsage T))) :
    Gathers (Consumes T) (readExprFields kind readArgs) (fun v p => ∃ expr : WireExpr,
      expr.kind = kind ∧ exprFields expr (expr.args.map exprMeaning) = v ∧
      addExprFields expr (addV2List addV2Expr expr.args) = .ok p.bytes ∧
      p.usage = exprFieldsUsage expr (exprsUsage T expr.args)) := by
  have hJ := consumes_joining T
  cases kind
  case var =>
    refine hJ.bind string_gathers ?_
    rintro name p ⟨hb, hu⟩
    exact hJ.pure ⟨{ kind := .var, name }, rfl, rfl, by rw [add_zero]; exact hb,
      by rw [add_zero]; exact hu⟩
  case litInt =>
    refine hJ.bind i32_gathers ?_
    rintro i p ⟨hb, hi, hu⟩
    refine hJ.pure ⟨{ kind := .litInt, litI := decimal i }, rfl, ?_, by rw [add_zero]; exact hb,
      by rw [add_zero]; exact hu⟩
    simp only [exprFields, WireExpr.litIValue, hi]
  case litReal =>
    refine hJ.bind f64_gathers ?_
    rintro lit p ⟨hb, hu⟩
    exact hJ.pure ⟨{ kind := .litReal, lit }, rfl, rfl, by rw [add_zero]; exact hb,
      by rw [add_zero]; exact hu⟩
  case litStr =>
    refine hJ.bind string_gathers ?_
    rintro litS p ⟨hb, hu⟩
    exact hJ.pure ⟨{ kind := .litStr, litS }, rfl, rfl, by rw [add_zero]; exact hb,
      by rw [add_zero]; exact hu⟩
  case funApp =>
    refine tag_gathers fun tag fnLib htag => hJ.bind string_gathers ?_
    rintro name p2 ⟨h2, u2⟩
    refine hJ.bind boolean_gathers ?_
    rintro fnPropto p3 ⟨h3, u3⟩
    refine hJ.bind hargs ?_
    rintro _ p4 ⟨args, rfl, h4, u4⟩
    have htag' := tag_unique (by decide) htag (libTag_get fnLib).2
    refine hJ.pure ⟨{ kind := .funApp, fnLib, name, fnPropto, args }, rfl, rfl, ?_, ?_⟩
    · simp [addExprFields, (libTag_get fnLib).1, h2, h3, h4, htag']
    · simp [exprFieldsUsage, u2, u3, u4, add_assoc]
  case promotion | indexed | ternaryIf | eOr | eAnd =>
    refine hJ.bind hargs ?_
    rintro _ p ⟨args, rfl, hb, hu⟩
    exact hJ.pure ⟨{ kind := _, args }, rfl, rfl, by rw [add_zero]; exact hb,
      by rw [add_zero]; exact hu⟩
  case unsupported => exact hJ.pure ⟨{ kind := .unsupported }, rfl, rfl, rfl, rfl⟩

theorem exprAt_gathers (fuel : ℕ) :
    Gathers (Consumes T) (readExprAt T fuel) (Spells addV2Expr exprMeaning (exprUsage T)) := by
  induction fuel with
  | zero => exact Gathers.throw _
  | succ fuel ih =>
    refine withDepth_gathers (tag_gathers fun tag kind htag => ?_)
    refine (consumes_joining T).bind (exprFields_gathers kind (list_gathers ih)) ?_
    rintro _ p1 ⟨fields, rfl, rfl, h1, u1⟩
    refine Gathers.mono (meta_gathers _) ?_
    rintro _ p2 ⟨suffix, rfl, h2, u2⟩
    -- One record with the fields of the first and the suffix of the second.
    refine ⟨{ fields with
      type := suffix.type, unsized := suffix.unsized, dataOnly := suffix.dataOnly,
      promoted := suffix.promoted, raw := suffix.raw }, ?_, ?_, ?_⟩
    · rw [exprMeaning_eq]
      rfl
    · rw [addV2Expr_eq_ok, tag_unique (by decide) htag (exprTag_get fields.kind)]
      exact ⟨_, _, h1, h2, rfl⟩
    · rw [exprUsage_eq]
      simp [Portion.deepen, u1, u2]
      rfl

theorem expr_gathers :
    Gathers (Consumes T) (readExpr T) (Spells addV2Expr exprMeaning (exprUsage T)) :=
  exprAt_gathers _

theorem exprs_gathers : Gathers (Consumes T) (readExprs T)
    (Spells (addV2List addV2Expr) (List.map exprMeaning) (exprsUsage T)) :=
  list_gathers expr_gathers

end

end Stanli.PortableMir
