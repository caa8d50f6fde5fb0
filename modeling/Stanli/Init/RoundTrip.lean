import Mathlib.Data.Set.Prod
import Stanli.Init.Leaves

/-!
# The round trip of a model

`constrainAll_unconstrainInits`: the free vector that the init section makes of a caller's values, constrained
and read out again, gives the values back.  The step is one parameter (`constrain_freeWrite`); the run
carries that both sides have the same values for the parameters before, so that they evaluate the bounds
of the next one to the same.
-/

namespace Stanli.Init

open Mir (TransformKind)

variable {V : Type} {m : LeafMath V}

/-! ## Lookups -/

theorem lookup_map_of_mem {l : List String} {g : String → List V} {name : String} (h : name ∈ l) :
    (l.map fun n => (n, g n)).lookup name = some (g name) := by
  induction l with
  | nil => cases h
  | cons n l ih =>
    rw [List.map_cons, List.lookup_cons]
    by_cases hn : name = n
    · rw [hn, beq_self_eq_true]
    · rw [beq_false_of_ne hn]
      exact ih ((List.mem_cons.1 h).resolve_left hn)

/-- The parameter of a name, where names are distinct. -/
theorem find?_name_eq {params : List InitParam} {p : InitParam}
    (h : (params.map InitParam.name).Nodup) (hp : p ∈ params) :
    params.reverse.find? (·.name = p.name) = some p := by
  have hsome : (params.reverse.find? (·.name = p.name)).isSome := by
    rw [List.find?_isSome]
    exact ⟨p, List.mem_reverse.2 hp, by simp⟩
  obtain ⟨q, hq⟩ := Option.isSome_iff_exists.1 hsome
  have hname := List.find?_some hq
  rw [hq, List.inj_on_of_nodup_map h (List.mem_reverse.1 (List.mem_of_find?_eq_some hq)) hp (by simpa using hname)]

/-! ## Values of a model -/

/-- The given values of these parameters. -/
def initialEnv (m : LeafMath V) (inits : List (String × Entry V)) (ps : List (Param V)) : Env V :=
  ps.map fun p => (p.name, given m inits p.name)

theorem initialEnv_eq (inits : List (String × Entry V)) (ps : List (Param V)) :
    initialEnv m inits ps = (ps.map Param.name).map fun n => (n, given m inits n) := by
  rw [List.map_map]
  rfl

/-- The two sides have equal bounds: where the init section evaluates the bounds of a parameter, the graph
has the same, in storage order where there is one for each value.  A bound does not read the parameter it
bounds. -/
def Param.Agrees (m : LeafMath V) (p : Param V) : Prop :=
  ∀ env value bounds, p.bounds.mapM (· (env ++ [(p.name, value)])) = .ok bounds →
    List.Forall₂ (BoundAgrees m p.read.view) bounds (p.slots.map (· env))

/-- The kernel of a parameter without values accepts its bounds, and the op its empty leaves. -/
def EmptyAccepted (m : LeafMath V) (inits : List (String × Entry V)) (ps : List (Param V)) : Prop :=
  ∀ before p after, ps = before ++ p :: after → p.read.view.len = 0 →
    ∃ stored, constrainParam m p.read (p.slots.map (· (initialEnv m inits before))) [] = .ok stored

/-! ## The run -/

section Run

variable {inits : List (String × Entry V)} {all : List (Param V)}

/-- What the init section expects of the parameters. -/
def expected (ps : List (Param V)) : List InitParam := ps.map (·.read.expected)

theorem initParams_eq (ps : List (Param V)) : initParams ps = .ok (expected ps) := by
  rw [initParams, expected, mapM_eq_ok_iff, List.forall₂_map_right_iff, List.forall₂_same]
  intro p _
  obtain ⟨inner, hs⟩ := stored p.accepted
  exact hs.initParam

/-- One parameter of the section: it is read, and its free form is appended. -/
theorem initRun_param (hnames : (all.map Param.name).Nodup) {p : Param V} (hp : p ∈ all)
    {before : List (Param V)} {body : List (InitStmt V)} {free : List V} {out : Env V × List V}
    (h : initRun m (expected all) (initialEnv m inits all)
      (.read p.name :: .write p.name p.read.kind p.bounds :: body) (initialEnv m inits before, free) =
        .ok out) :
    ∃ bounds ys, (given m inits p.name).length = p.read.view.len ∧
      p.bounds.mapM (· (initialEnv m inits (before ++ [p]))) = .ok bounds ∧
      freeWrite m p.read.expected p.read.kind (given m inits p.name) bounds = .ok ys ∧
      initRun m (expected all) (initialEnv m inits all) body
        (initialEnv m inits (before ++ [p]), free ++ ys) = .ok out := by
  have hread : (initialEnv m inits all).lookup p.name = some (given m inits p.name) := by
    rw [initialEnv_eq]
    exact lookup_map_of_mem (List.mem_map_of_mem hp)
  have hnext : initialEnv m inits before ++ [(p.name, given m inits p.name)] =
      initialEnv m inits (before ++ [p]) := by
    rw [initialEnv, initialEnv, List.map_append, List.map_singleton]
  have hbuilt : (initialEnv m inits (before ++ [p])).lookup p.name = some (given m inits p.name) := by
    rw [initialEnv_eq]
    exact lookup_map_of_mem (List.mem_map_of_mem (by simp))
  have hfind : (expected all).reverse.find? (·.name = p.name) = some p.read.expected := by
    have hmem : p.read.expected ∈ expected all := List.mem_map_of_mem hp
    have hnodup : ((expected all).map InitParam.name).Nodup := by
      rw [expected, List.map_map]
      exact hnames
    exact find?_name_eq hnodup hmem
  rw [initRun, initStep, hread] at h
  simp only [bind, Except.bind] at h
  rw [hnext, initRun, initStep, hfind] at h
  simp only [hbuilt, bind_eq_ok_iff, pure, Except.pure, Except.ok.injEq] at h
  obtain ⟨s, ⟨_, hlen, bounds, hbounds, ys, hys, rfl⟩, h⟩ := h
  rw [failIf_eq_ok, not_ne_iff] at hlen
  exact ⟨bounds, ys, hlen, hbounds, hys, h⟩

/-- The section and the graph, parameter after parameter. -/
theorem constrainAll_initRun (hm : m.Inverse) (hnames : (all.map Param.name).Nodup)
    (hagree : ∀ p ∈ all, p.Agrees m) (hempty : EmptyAccepted m inits all) {before ps : List (Param V)}
    (hall : all = before ++ ps) {free : List V} {out : Env V × List V}
    (h : initRun m (expected all) (initialEnv m inits all) (transformInits ps)
      (initialEnv m inits before, free) = .ok out) :
    ∃ rest, out.2 = free ++ rest ∧
      constrainAll m ps (initialEnv m inits before) rest = .ok (initialEnv m inits all) := by
  induction ps generalizing before free with
  | nil =>
    rw [transformInits, List.flatMap_nil, initRun, Except.ok.injEq] at h
    rw [← h, hall, List.append_nil]
    exact ⟨[], (List.append_nil free).symm, rfl⟩
  | cons p ps ih =>
    have hp : p ∈ all := by
      rw [hall]
      exact List.mem_append_right _ (List.mem_cons_self ..)
    obtain ⟨bounds, ys, hlen, hbounds, hys, h⟩ := initRun_param hnames hp h
    have hall' : all = before ++ [p] ++ ps := by rw [hall, List.append_assoc, List.singleton_append]
    obtain ⟨rest, hout, hrest⟩ := ih hall' h
    obtain ⟨inner, hs⟩ := stored p.accepted
    have henv : initialEnv m inits (before ++ [p]) =
        initialEnv m inits before ++ [(p.name, given m inits p.name)] := by
      rw [initialEnv, initialEnv, List.map_append, List.map_singleton]
    rw [henv] at hbounds
    obtain ⟨hraw, stored, hstored, hreadOut⟩ := constrain_freeWrite hm hs hlen
      (hagree p hp _ _ _ hbounds) (hempty before p ps hall) hys
    refine ⟨ys ++ rest, by rw [hout, List.append_assoc], ?_⟩
    rw [constrainAll, List.take_left' hraw, List.drop_left' hraw, hstored]
    simp only [bind, Except.bind]
    rw [hreadOut, ← henv, hrest]

/-- What the section makes of the given values is constrained and read out as these values. -/
theorem constrainAll_unconstrainInits (hm : m.Inverse) {ps : List (Param V)}
    (hnames : (ps.map Param.name).Nodup) (hagree : ∀ p ∈ ps, p.Agrees m)
    (hempty : EmptyAccepted m inits ps) {free : List V} (h : unconstrainInits m ps inits = .ok free) :
    constrainAll m ps [] free = .ok (initialEnv m inits ps) := by
  simp only [unconstrainInits, bind_eq_ok_iff, mapError_eq_ok_iff, initParams_eq, Except.ok.injEq] at h
  obtain ⟨params, rfl, h⟩ := h
  simp only [eval, bind_eq_ok_iff, pure, Except.pure, Except.ok.injEq] at h
  obtain ⟨-, -, -, -, out, hrun, -, -, rfl⟩ := h
  have hshaped : (expected ps).map (fun p => (p.name, given m inits p.name)) = initialEnv m inits ps := by
    rw [expected, List.map_map]
    rfl
  rw [hshaped] at hrun
  have hall : ps = [] ++ ps := rfl
  obtain ⟨rest, hout, hrest⟩ := constrainAll_initRun hm hnames hagree hempty hall hrun
  rw [hout]
  exact hrest

end Run

/-! ## The layout of one parameter -/

/-- The free length of a leaf, times the number of array elements, is the allocated length: for the declared
leaf, and for the leaf that the init section gathers. -/
def FreeLengthsAgree (s : ReadStmt) (r : ReadParam) : Prop :=
  (∃ inner : ℤ, freeLeafSize s.kind
      (s.declType.dims.drop (s.declType.dims.length - leafRank s.declType.leaf)) = .ok inner ∧
    (r.rawLen : ℤ) = inner *
      (s.declType.dims.take (s.declType.dims.length - leafRank s.declType.leaf)).prod) ∧
  ∃ p, initParam r = .ok p ∧ ∃ inner : ℤ,
    freeLeafSize r.kind ((leafDims p.dims p.leafRank).map Nat.cast) = .ok inner ∧
    (p.freeLen : ℤ) = inner * ((outerDims p.dims p.leafRank).prod : ℕ)

/-- Serial positions and values of array elements are in bijection, and the read-out takes each value
from where it is stored. -/
structure LayoutInverse (r : ReadParam) : Prop where
  bijOn : Set.BijOn (fun e : ℕ × ℕ => serialIndex r.view.dims (initRank r) e.1 e.2)
    (Set.Iio r.batches ×ˢ Set.Iio r.leafLen) (Set.Iio r.view.len)
  storageIndex_serialIndex : ∀ b < r.batches, ∀ j < r.leafLen,
    r.view.storageIndex (serialIndex r.view.dims (initRank r) b j) = b * r.leafLen + j
  serialIndex_storageIndex : ∀ i < r.view.len, r.view.storageIndex i < r.view.len ∧
    serialIndex r.view.dims (initRank r) (r.view.storageIndex i / r.leafLen)
      (r.view.storageIndex i % r.leafLen) = i

/-- Every value of an elementwise parameter is freed, and constrained again, under the bounds that are
declared for it. -/
def BoundsOfValues (m : LeafMath V) (r : ReadParam) : Prop :=
  ∀ value ys bounds slots, elementwise r.kind = true →
    List.Forall₂ (BoundAgrees m r.view) bounds slots →
    freeWrite m r.expected r.kind value bounds = .ok ys → ∀ i < r.view.len,
      unconstrainElement m r.kind ((bounds.map (serialBound m · i)).map ([·])) 0 (value.getD i m.past) =
          .ok (ys.getD (r.view.storageIndex i) m.past) ∧
        ∀ op, (constrainElements m op (kernelBounds m r.kind slots) ys).getD (r.view.storageIndex i) m.past =
          elementConstrain m op (ys.getD (r.view.storageIndex i) m.past)
            (elementBounds m r.kind (bounds.map (serialBound m · i)))

theorem freeLengthsAgree {s : ReadStmt} {r : ReadParam} (h : lowerReadParam s = .ok r) :
    FreeLengthsAgree s r := by
  obtain ⟨inner, hs⟩ := stored h
  obtain ⟨nBatch, readLen, shape, h⟩ := accepted h
  constructor
  · obtain ⟨inner, hfree, hnonneg, hraw, -⟩ := h.rawLen fun _ => rfl
    refine ⟨inner, hfree, ?_⟩
    have hpos : 0 ≤ (s.declType.dims.take (s.declType.dims.length - leafRank s.declType.leaf)).prod :=
      List.prod_nonneg fun d hd => h.nonneg d (List.mem_of_mem_take hd)
    rw [h.rawLen_eq, hraw, Int.toNat_of_nonneg (mul_nonneg hpos hnonneg), mul_comm]
  · refine ⟨r.expected, hs.initParam, inner, hs.free, ?_⟩
    change (r.rawLen : ℤ) = _
    rw [hs.rawLen, Nat.cast_mul, mul_comm]
    rfl

/-- The array element and the leaf position of a cell. -/
theorem place_div_mod {b j k : ℕ} (hj : j < k) : (b * k + j) / k = b ∧ (b * k + j) % k = j := by
  have hpos : 0 < k := Nat.zero_lt_of_lt hj
  rw [Nat.mul_comm, Nat.mul_add_div hpos, Nat.mul_add_mod, Nat.div_eq_of_lt hj, Nat.mod_eq_of_lt hj,
    Nat.add_zero]
  exact ⟨rfl, rfl⟩

theorem layoutInverse {r : ReadParam} {inner : ℕ} (hs : Stored r inner) : LayoutInverse r where
  bijOn := by
    refine ⟨fun e he => hs.serialIndex_lt he.1 he.2, fun e he e' he' heq => ?_, fun i hi => ?_⟩
    · have hstorage := congrArg r.view.storageIndex heq
      dsimp only at hstorage
      rw [hs.storageIndex_serialIndex he.1 he.2, hs.storageIndex_serialIndex he'.1 he'.2] at hstorage
      obtain ⟨hb, hj⟩ := place_div_mod (b := e.1) he.2
      obtain ⟨hb', hj'⟩ := place_div_mod (b := e'.1) he'.2
      rw [hstorage] at hb hj
      exact Prod.ext (hb.symm.trans hb') (hj.symm.trans hj')
    · obtain ⟨b, hb, j, hj, h⟩ := hs.exists_serialIndex hi
      exact ⟨(b, j), ⟨hb, hj⟩, h⟩
  storageIndex_serialIndex := fun b hb j hj => hs.storageIndex_serialIndex hb hj
  serialIndex_storageIndex := by
    intro i hi
    refine ⟨hs.storageIndex_lt hi, ?_⟩
    obtain ⟨b, hb, j, hj, rfl⟩ := hs.exists_serialIndex hi
    obtain ⟨hdiv, hmod⟩ := place_div_mod (b := b) hj
    rw [hs.storageIndex_serialIndex hb hj, hdiv, hmod]

theorem boundsOfValues {r : ReadParam} {inner : ℕ} (hs : Stored r inner) : BoundsOfValues m r := by
  intro value ys bounds slots hkind hagree h i hi
  obtain ⟨hlen, hfree⟩ := freeWrite_element hs hkind h
  refine ⟨hfree i hi, fun op => ?_⟩
  rw [getD_constrainElements _ _ (by rw [hlen]; exact hs.storageIndex_lt hi), map_boundCell_kernelBounds,
    bounds_eq hs hagree hi]

/-- Initial values round-trip through the parameter layout. -/
theorem initial_values_round_trip (hm : m.Inverse) :
    (∀ s r, lowerReadParam s = .ok r → FreeLengthsAgree s r ∧ LayoutInverse r ∧ BoundsOfValues m r) ∧
    ∀ (ps : List (Param V)) (inits : List (String × Entry V)) (free : List V),
      (ps.map Param.name).Nodup → (∀ p ∈ ps, p.Agrees m) → EmptyAccepted m inits ps →
      unconstrainInits m ps inits = .ok free →
        constrainAll m ps [] free = .ok (initialEnv m inits ps) := by
  refine ⟨fun s r h => ?_, fun ps inits free hnames hagree hempty h =>
    constrainAll_unconstrainInits hm hnames hagree hempty h⟩
  obtain ⟨inner, hs⟩ := stored h
  exact ⟨freeLengthsAgree h, layoutInverse hs, boundsOfValues hs⟩

/-! ## A model with whole-number values -/

/-- stan-math at points where the free values are whole numbers: a value one above its lower bound has the
free value `log 1`, the middle of an interval `logit (1 / 2)`, and steps of one in an ordered vector
`log 1`. -/
def integerMath : LeafMath ℤ where
  zero := 0
  one := 1
  past := 0
  ofInt := id
  isNegInf _ := false
  isPosInf _ := false
  less a b := decide (a < b)
  finite _ := true
  positiveFinite s := decide (0 < s)
  lbFree x lb := if x = lb + 1 then .ok 0 else .error "not a whole number"
  ubFree x ub := if x = ub - 1 then .ok 0 else .error "not a whole number"
  lubFree x lb ub := if lb < ub ∧ x + x = lb + ub then .ok 0 else .error "not a whole number"
  offsetMultiplierFree x mu sigma :=
    if 0 < sigma ∧ sigma * ((x - mu) / sigma) + mu = x then .ok ((x - mu) / sigma)
    else .error "not a whole number"
  free kind _ xs :=
    if kind = .ordered ∧ xs = (List.range xs.length).map fun i => xs.getD 0 0 + (i : ℤ) then
      .ok (xs.take 1 ++ List.replicate (xs.length - 1) 0)
    else .error "not a whole number"
  lbConstrain y lb := lb + 1 + y
  ubConstrain y ub := ub - 1 - y
  lubConstrain y lb ub := (lb + ub) / 2 + y
  offsetMultiplierConstrain y mu sigma := sigma * y + mu
  constrain _ _ ys := .ok ((List.range ys.length).map fun i => ys.getD 0 0 + (i : ℤ))

theorem integerMath_inverse : integerMath.Inverse where
  lower := by
    intro x lb y h
    simp only [integerMath] at h ⊢
    split at h
    · rename_i hx
      rw [← Except.ok.inj h, hx, add_zero]
    · cases h
  upper := by
    intro x ub y h
    simp only [integerMath] at h ⊢
    split at h
    · rename_i hx
      rw [← Except.ok.inj h, hx, sub_zero]
    · cases h
  lowerUpper := by
    intro x lb ub y h
    simp only [integerMath] at h ⊢
    split at h
    · rename_i hx
      rw [← Except.ok.inj h]
      exact ⟨by simpa using hx.1, by omega⟩
    · cases h
  offsetMultiplier := by
    intro x mu sigma y h
    simp only [integerMath] at h ⊢
    split at h
    · rename_i hx
      rw [← Except.ok.inj h]
      exact ⟨trivial, by simpa using hx.1, hx.2⟩
    · cases h
  leaf := by
    intro kind leaf dims op n xs ys hkind hop hrank hfree hlen h
    simp only [integerMath] at h ⊢
    split at h
    · rename_i hx
      obtain ⟨rfl, hsteps⟩ := hx
      cases Except.ok.inj hop
      obtain ⟨k, rfl⟩ := List.length_eq_one_iff.1 (hrank.resolve_right fun hmatrix => by cases hmatrix.1).2
      rw [List.prod_singleton] at hlen
      have hys := Except.ok.inj h
      have hfirst : ys.getD 0 0 = xs.getD 0 0 := by
        rw [← hys]
        cases xs with
        | nil => rfl
        | cons x xs => rfl
      have hysLen : ys.length = xs.length := by
        rw [← hys, List.length_append, List.length_take, List.length_replicate]
        omega
      rw [hfirst, hysLen, ← hsteps, hlen]
      exact ⟨Except.ok.inj hfree, rfl⟩
    · cases h

/-- `array[2] matrix[1, 2] b` and `array[2] ordered[2] c`: the elements are stored one after the other, the
serial list has the first of each first. -/
def interleaved (name : String) (dims : List ℕ) (matrixStorage : Bool) : ParamView where
  name := name
  len := 4
  dims := dims
  matrixStorage := matrixStorage
  storageOrder := [0, 2, 1, 3]

/-- `real a`, `array[2] matrix<lower=L>[1, 2] b`, `array[2] ordered[2] c` and `vector<lower=a>[2] d`. -/
def wholeModel : List (Param ℤ) :=
  [{ decl := ⟨"a", { base := .real }, [], .identity⟩
     read := ⟨.identity, none, { name := "a", len := 1 }, 1, [], []⟩
     accepted := rfl
     bounds := []
     slots := [] },
   { decl := ⟨"b", { base := .array, elemBase := .matrix, dims := [2, 1, 2] }, [2, 1, 2], .lower⟩
     read := ⟨.lower, some .lower, interleaved "b" [2, 1, 2] true, 4, [2, 1, 2], []⟩
     accepted := rfl
     bounds := [fun _ => .ok [10, 20, 30, 40]]
     slots := [fun _ => [10, 30, 20, 40]] },
   { decl := ⟨"c", { base := .array, elemBase := .vector, dims := [2, 2] }, [2, 2], .ordered⟩
     read := ⟨.ordered, some .ordered, interleaved "c" [2, 2] false, 4, [2, 2], [2, 2, 2]⟩
     accepted := rfl
     bounds := []
     slots := [] },
   { decl := ⟨"d", { base := .vector, dims := [2] }, [2], .lower⟩
     read := ⟨.lower, some .lower, { name := "d", len := 2, dims := [2] }, 2, [2], []⟩
     accepted := rfl
     bounds := [fun env => .ok [((env.lookup "a").getD []).getD 0 0]]
     slots := [fun env => [((env.lookup "a").getD []).getD 0 0]] }]

def wholeInits : List (String × Entry ℤ) :=
  [("a", { r := [3] }), ("b", { r := [11, 21, 31, 41] }), ("c", { r := [5, 7, 6, 8] }),
   ("d", { i := [4, 4] })]

theorem wholeModel_agrees : ∀ p ∈ wholeModel, p.Agrees integerMath := by
  intro p hp env value bounds h
  simp only [wholeModel, List.mem_cons, List.not_mem_nil, or_false] at hp
  rcases hp with rfl | rfl | rfl | rfl
  · cases h
    exact .nil
  · cases h
    exact .cons (.inr ⟨rfl, rfl, rfl⟩) .nil
  · cases h
    exact .nil
  · have hlookup : (env ++ [("d", value)]).lookup "a" = env.lookup "a" := by
      rw [List.lookup_append]
      exact Option.or_none
    cases h
    refine .cons (.inl ⟨rfl, ?_⟩) .nil
    exact congrArg (fun e : Option (List ℤ) => [(e.getD []).getD 0 0]) hlookup.symm

theorem wholeModel_emptyAccepted : EmptyAccepted integerMath wholeInits wholeModel := by
  intro before p after h hlen
  have hp : p ∈ wholeModel := by
    rw [h]
    simp
  simp only [wholeModel, List.mem_cons, List.not_mem_nil, or_false] at hp
  rcases hp with rfl | rfl | rfl | rfl <;> cases hlen

/-- The values of the four parameters come back, each in its place. -/
theorem initial_values_round_trip_wholeModel :
    FreeLengthsAgree (wholeModel.map Param.decl)[1] (wholeModel.map Param.read)[1] ∧
      constrainAll integerMath wholeModel [] [3, 0, 0, 0, 0, 5, 0, 7, 0, 0, 0] =
        .ok [("a", [3]), ("b", [11, 21, 31, 41]), ("c", [5, 7, 6, 8]), ("d", [4, 4])] := by
  have h := initial_values_round_trip integerMath_inverse
  exact ⟨(h.1 _ _ rfl).1, h.2 wholeModel wholeInits _ (by decide) wholeModel_agrees
    wholeModel_emptyAccepted rfl⟩

/-! ## A parameter without values -/

/-- `vector<lower=1, upper=0>[0] e`. -/
def emptyModel : List (Param ℤ) :=
  [{ decl := ⟨"e", { base := .vector, dims := [0] }, [0], .lowerUpper⟩
     read := ⟨.lowerUpper, some .lowerUpper, { name := "e", len := 0, dims := [0] }, 0, [0], []⟩
     accepted := rfl
     bounds := [fun _ => .ok [1], fun _ => .ok [0]]
     slots := [fun _ => [1], fun _ => [0]] }]

/-- With no value to free, the init section checks nothing, and the kernel refuses the bounds. -/
theorem emptyModel_refused :
    integerMath.Inverse ∧ (emptyModel.map Param.name).Nodup ∧
      (∀ p ∈ emptyModel, p.Agrees integerMath) ∧
      unconstrainInits integerMath emptyModel [("e", {})] = .ok [] ∧
      constrainAll integerMath emptyModel [] [] = .error "lub_constrain: lb" := by
  refine ⟨integerMath_inverse, by decide, ?_, rfl, rfl⟩
  intro p hp env value bounds h
  obtain rfl := List.mem_singleton.1 hp
  cases h
  exact .cons (.inl ⟨rfl, rfl⟩) (.cons (.inl ⟨rfl, rfl⟩) .nil)

end Stanli.Init
