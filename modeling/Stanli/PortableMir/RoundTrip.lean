import Stanli.Lib.Checks
import Stanli.PortableMir.Canonical

namespace Stanli.PortableMir

/-! ### The round trip

The payload of a program is read back as its meaning, whatever is accepted is the encoding of what
it returns, and the envelope is canonical, so documents and programs correspond. -/

section

variable {T : Target} {fuel : ℕ}

/-! ### Functions and inputs -/

theorem addV2Bool_pos (v : Bool) (b : Bytes) (h : addV2Bool v = .ok b) : 1 ≤ b.length := by
  rw [addV2Bool_eq] at h
  cases h
  exact le_rfl

theorem addV2View_pos (view : WireView) (b : Bytes) (h : addV2View view = .ok b) :
    1 ≤ b.length := by
  obtain ⟨-, -, rfl⟩ := addV2View_eq_ok.1 h
  exact Nat.succ_pos _

theorem strings_delivers {strings : List Bytes} {b : Bytes}
    (h : addV2List addV2String strings = .ok b) :
    Delivers (Fueled T fuel) (readStrings T) ⟨b, stringsUsage T strings⟩ strings := by
  have hlist : Delivers (Fueled T fuel) (readStrings T) ⟨b, stringsUsage T strings⟩
      (strings.map fun string => string) :=
    spelled_list_delivers (fun _ _ hw => string_delivers hw) (fun _ _ hw => addV2String_pos hw) h
  rwa [List.map_id'] at hlist

theorem string_spells : Gathers (Consumes T) string (Spells addV2String id stringUsage) :=
  string_gathers.mono fun v _ hv => ⟨v, rfl, hv.1, hv.2⟩

theorem boolean_spells :
    Gathers (Consumes T) boolean (Spells addV2Bool id fun _ => scalarUsage) :=
  boolean_gathers.mono fun v _ hv => ⟨v, rfl, hv.1, hv.2⟩

theorem strings_gathers : Gathers (Consumes T) (readStrings T)
    (Spells (addV2List addV2String) id (stringsUsage T)) := by
  have hlist : Gathers (Consumes T) (readStrings T)
      (Spells (addV2List addV2String) (List.map id) (stringsUsage T)) := list_gathers string_spells
  rwa [List.map_id_fun] at hlist

theorem fun_delivers {fn : WireFun} {b : Bytes} (hfn : fn.ArityAgrees) (h : addV2Fun fn = .ok b) :
    Delivers (Fueled T fuel) (readFun T) ⟨b, funUsage T fn⟩ (funMeaning fn) := by
  simp only [addV2Fun, emit_append_assoc, emit_append_eq_ok] at h
  obtain ⟨_, _, h1, ⟨_, _, h2, ⟨_, _, h3, ⟨_, _, h4, ⟨_, _, h5, h6, rfl⟩, rfl⟩, rfl⟩, rfl⟩,
    rfl⟩ := h
  refine withDepth_delivers_of_all (p := ⟨_, _⟩) ?_
  simp only [add_assoc]
  have hviews : Delivers (Fueled T fuel) (list T .view readView) ⟨_, _⟩ (fn.argViews.map _) :=
    spelled_list_delivers (fun _ _ hw => view_delivers hw) addV2View_pos h4
  have hbools : Delivers (Fueled T fuel) (list T .bool boolean) ⟨_, _⟩
      (fn.argDataOnly.map fun v => v) :=
    spelled_list_delivers (fun _ _ hw => boolean_delivers hw) addV2Bool_pos h5
  rw [List.map_id'] at hbools
  refine read_bind (string_delivers h1) (read_bind (strings_delivers h2) (read_bind
    (strings_delivers h3) (read_bind hviews (read_bind hbools ?_))))
  intro s s' hs
  refine bind_eq_ok.2 ⟨_, s', stmts_delivers h6 s s' hs, bind_eq_ok.2 ⟨(), s', ?_, rfl⟩⟩
  refine failWhen_eq_ok.2 ⟨decide_eq_false_iff_not.2 ?_, rfl⟩
  rw [List.length_map, hfn.types, hfn.views, hfn.dataOnly]
  rintro (hne | hne | hne) <;> exact hne rfl

/-- The functions whose argument lists agree. -/
abbrev AgreeingFun := {fn : WireFun // fn.ArityAgrees}

theorem fun_gathers : Gathers (Consumes T) (readFun T)
    (Spells (fun fn : AgreeingFun => addV2Fun fn.1) (fun fn => funMeaning fn.1)
      fun fn => funUsage T fn.1) := by
  have hJ := consumes_joining T
  refine withDepth_gathers (hJ.bind string_gathers ?_)
  rintro name p1 ⟨h1, u1⟩
  refine hJ.bind strings_gathers ?_
  rintro _ p2 ⟨argNames, rfl, h2, u2⟩
  refine hJ.bind strings_gathers ?_
  rintro _ p3 ⟨argTypes, rfl, h3, u3⟩
  refine hJ.bind (list_gathers view_gathers) ?_
  rintro _ p4 ⟨argViews, rfl, h4, u4⟩
  refine hJ.bind (list_gathers boolean_spells) ?_
  rintro _ p5 ⟨argDataOnly, rfl, h5, u5⟩
  refine hJ.bind stmts_gathers ?_
  rintro _ p6 ⟨body, rfl, h6, u6⟩
  intro s v s' hread
  simp only [bind_eq_ok, failWhen_eq_ok, pure_eq_ok, decide_eq_false_iff_not, not_or,
    ne_eq, not_not, List.length_map, id_eq] at hread
  obtain ⟨_, _, ⟨⟨ht, hv, hd⟩, rfl⟩, rfl, rfl⟩ := hread
  refine ⟨0, ⟨⟨⟨name, argNames, argTypes, argViews, argDataOnly, body⟩, ⟨ht, hv, hd⟩⟩, ?_, ?_, ?_⟩,
    hJ.zero _⟩
  · simp [funMeaning]
  · simp [addV2Fun, h1, h2, h3, h4, h5, h6, Portion.deepen]
  · simp [funUsage, Portion.deepen, u1, u2, u3, u4, u5, u6, add_assoc]

theorem input_delivers {input : Bytes × WireSized} {b : Bytes} (h : addV2Input input = .ok b) :
    Delivers (Fueled T fuel) (readInput T) ⟨b, inputUsage T input⟩ (inputMeaning input) := by
  obtain ⟨b1, b2, h1, h2, rfl⟩ := emit_append_eq_ok.1 h
  refine withDepth_delivers_of_all (p := ⟨_, _⟩) (read_bind (string_delivers h1) ?_)
  exact read_map _ (sized_delivers h2)

theorem input_gathers : Gathers (Consumes T) (readInput T)
    (Spells addV2Input inputMeaning (inputUsage T)) := by
  have hJ := consumes_joining T
  refine withDepth_gathers (hJ.bind string_gathers ?_)
  rintro name p1 ⟨h1, u1⟩
  refine hJ.bind sized_gathers ?_
  rintro _ p2 ⟨type, rfl, h2, u2⟩
  refine hJ.pure ⟨(name, type), rfl, ?_, ?_⟩
  · simp [addV2Input, h1, h2, Portion.deepen]
  · simp [inputUsage, Portion.deepen, u1, u2]

theorem addV2Input_pos (input : Bytes × WireSized) (b : Bytes) (h : addV2Input input = .ok b) :
    1 ≤ b.length :=
  append_pos_left (fun _ ha => addV2String_pos ha) h

theorem addV2Fun_pos {fn : WireFun} {b : Bytes} (h : addV2Fun fn = .ok b) : 1 ≤ b.length := by
  simp only [addV2Fun, emit_append_assoc] at h
  exact append_pos_left (fun _ ha => addV2String_pos ha) h

/-! ### Sections -/

theorem sections_delivers {program : WireProgram} {b : Bytes}
    (hfuns : ∀ fn ∈ program.funDefs, fn.ArityAgrees) (h : addSections program = .ok b) :
    Delivers (Fueled T fuel) (readSections T) ⟨b, sectionsUsage T program⟩
      (sectionsMeaning program) := by
  simp only [addSections, emit_append_assoc, emit_append_eq_ok] at h
  obtain ⟨_, _, h1, ⟨_, _, h2, ⟨_, _, h3, ⟨_, _, h4, ⟨_, _, h5, h6, rfl⟩, rfl⟩, rfl⟩, rfl⟩,
    rfl⟩ := h
  simp only [sectionsUsage, add_assoc]
  have hinputs : Delivers (Fueled T fuel) (list T .input (readInput T)) ⟨_, _⟩
      (program.inputVars.map _) :=
    spelled_list_delivers (fun _ _ hw => input_delivers hw) addV2Input_pos h1
  have hdefs : Delivers (Fueled T fuel) (list T .funDef (readFun T)) ⟨_, _⟩
      (program.funDefs.map _) :=
    list_delivers h5 (fun fn hfn _ hw => fun_delivers (hfuns fn hfn) hw) fun _ _ hw =>
      addV2Fun_pos hw
  refine read_bind hinputs (read_bind (stmts_delivers h2) (read_bind (stmts_delivers h3) (read_bind
    (stmts_delivers h4) (read_bind hdefs ?_))))
  exact read_map _ (strings_delivers h6)

theorem addItems_val {fns : List AgreeingFun} :
    addItems (fun fn : AgreeingFun => addV2Fun fn.1) fns = addItems addV2Fun (fns.map (·.1)) := by
  induction fns with
  | nil => rfl
  | cons fn fns ih => rw [addItems, ih, List.map_cons, addItems]

theorem addV2List_val {fns : List AgreeingFun} :
    addV2List (fun fn : AgreeingFun => addV2Fun fn.1) fns = addV2List addV2Fun (fns.map (·.1)) := by
  rw [addV2List, addV2List, addItems_val, List.length_map]

theorem sections_gathers : Gathers (Consumes T) (readSections T) (fun v p =>
    ∃ program : WireProgram, program.transformInits = [] ∧
      (∀ fn ∈ program.funDefs, fn.ArityAgrees) ∧ sectionsMeaning program = v ∧
      addSections program = .ok p.bytes ∧ p.usage = sectionsUsage T program) := by
  have hJ := consumes_joining T
  refine hJ.bind (list_gathers input_gathers) ?_
  rintro _ p1 ⟨inputVars, rfl, h1, u1⟩
  refine hJ.bind stmts_gathers ?_
  rintro _ p2 ⟨prepareData, rfl, h2, u2⟩
  refine hJ.bind stmts_gathers ?_
  rintro _ p3 ⟨logProb, rfl, h3, u3⟩
  refine hJ.bind stmts_gathers ?_
  rintro _ p4 ⟨generateQuantities, rfl, h4, u4⟩
  refine hJ.bind (list_gathers fun_gathers) ?_
  rintro _ p5 ⟨funDefs, rfl, h5, u5⟩
  refine hJ.bind strings_gathers ?_
  rintro _ p6 ⟨outputVars, rfl, h6, u6⟩
  rw [addV2List_val] at h5
  refine hJ.pure ⟨⟨inputVars, prepareData, logProb, generateQuantities, funDefs.map (·.1),
    outputVars, []⟩, rfl, ?_, ?_, ?_, ?_⟩
  · intro fn hfn
    obtain ⟨fn', -, rfl⟩ := List.mem_map.1 hfn
    exact fn'.2
  · simp only [sectionsMeaning, List.map_map, id_eq]
    rfl
  · simp only [addSections, h1, h2, h3, h4, h5, h6, emit_ok_append, Portion.add_bytes,
      Portion.zero_bytes, List.append_nil, List.append_assoc]
  · simp only [sectionsUsage, Portion.add_usage, u1, u2, u3, u4, u5, u6, add_zero, add_assoc,
      List.map_map]
    rfl

/-! ### Payloads -/

theorem atEnd_eq_ok {v : Bool} {s s' : Reader} :
    atEnd s = .ok (v, s') ↔ v = s.rest.isEmpty ∧ s' = s := by
  rw [atEnd]
  simp [eq_comm]

theorem peakDepth_eq_ok {v : ℕ} {s s' : Reader} :
    peakDepth s = .ok (v, s') ↔ v = s.peak ∧ s' = s := by
  rw [peakDepth]
  simp [eq_comm]

theorem readProgram_eq_ok {p : Mir.Program} {s s' : Reader} :
    readProgram T s = .ok (p, s') ↔ ∃ q s1, readSections T s = .ok (q, s1) ∧
      ((s1.rest = [] ∧ s' = s1 ∧ p = { q with nesting := (s1.peak + 1) / 2 }) ∨
      (s1.rest ≠ [] ∧ ∃ inits, readStmts T s1 = .ok (inits, s') ∧
        p = { q with
          hasTransformInits := true, transformInits := inits, nesting := (s'.peak + 1) / 2 })) := by
  simp only [readProgram, readTransformInits, bind_eq_ok, atEnd_eq_ok, peakDepth_eq_ok, pure_eq_ok]
  constructor
  · rintro ⟨q, s1, hq, r, s2, ⟨ended, _, ⟨rfl, rfl⟩, hr⟩, _, _, ⟨rfl, rfl⟩, rfl, rfl⟩
    refine ⟨q, _, hq, ?_⟩
    split at hr
    · rename_i hend
      obtain ⟨rfl, rfl⟩ := pure_eq_ok.1 hr
      exact Or.inl ⟨List.isEmpty_iff.1 hend, rfl, rfl⟩
    · rename_i hend
      obtain ⟨inits, s3, hinits, hr⟩ := bind_eq_ok.1 hr
      obtain ⟨rfl, rfl⟩ := pure_eq_ok.1 hr
      exact Or.inr ⟨fun h => hend (List.isEmpty_iff.2 h), inits, hinits, rfl⟩
  · rintro ⟨q, s1, hq, ⟨hend, rfl, rfl⟩ | ⟨hend, inits, hinits, rfl⟩⟩
    · refine ⟨q, _, hq, q, _, ⟨_, _, ⟨rfl, rfl⟩, ?_⟩, _, _, ⟨rfl, rfl⟩, rfl, rfl⟩
      rw [if_pos (List.isEmpty_iff.2 hend)]
      rfl
    · refine ⟨q, s1, hq, { q with hasTransformInits := true, transformInits := inits }, s',
        ⟨_, _, ⟨rfl, rfl⟩, ?_⟩, _, _, ⟨rfl, rfl⟩, rfl, rfl⟩
      rw [if_neg fun h => hend (List.isEmpty_iff.1 h)]
      exact bind_eq_ok.2 ⟨inits, s', hinits, rfl⟩

/-- A document is accepted when the program read from its payload ends where the payload does. -/
theorem decode_eq_ok {wire : Bytes} {p : Mir.Program} :
    decode T wire = .ok p ↔ ∃ payload s', decodePayload wire = .ok payload ∧
      readProgram T { rest := payload } = .ok (p, s') ∧ s'.rest = [] := by
  simp only [decode, bind_eq_ok_iff]
  constructor
  · rintro ⟨payload, hpayload, reader, hreader, ⟨v, t⟩, hdocument, hp⟩
    obtain ⟨_, s', hread, hfinish⟩ := bind_eq_ok.1 hdocument
    obtain ⟨_, _, hfail, hpure⟩ := bind_eq_ok.1 hfinish
    obtain ⟨hend, rfl⟩ := failWhen_eq_ok.1 hfail
    obtain ⟨rfl, rfl⟩ := pure_eq_ok.1 hpure
    cases hp
    rw [Bool.not_eq_false', List.isEmpty_iff] at hend
    rw [Reader.create] at hreader
    split at hreader
    · cases hreader
    · cases hreader
      exact ⟨payload, _, hpayload, hread, hend⟩
  · rintro ⟨payload, s', hpayload, hread, hend⟩
    have hlen := (decodePayload_eq_ok.1 hpayload).1
    have hcreate : Reader.create payload = .ok { rest := payload } := by
      rw [Reader.create, if_neg]
      rw [kMaxInputBytes]
      omega
    have hfinish : finish s' = .ok ((), s') := by
      refine failWhen_eq_ok.2 ⟨?_, rfl⟩
      rw [Bool.not_eq_false', List.isEmpty_iff]
      exact hend
    have hdocument : readDocument T { rest := payload } = .ok (p, s') :=
      bind_eq_ok.2 ⟨p, s', hread, bind_eq_ok.2 ⟨(), s', hfinish, rfl⟩⟩
    exact ⟨payload, hpayload, _, hcreate, (p, s'), hdocument, rfl⟩

/-! ### From a fresh reader -/

theorem room_fresh {payload : Bytes} {u : Usage} :
    Room T { rest := payload } u ↔ u.Within T := by
  constructor
  · rintro ⟨h1, h2, h3, h4, h5, h6⟩
    simp only at h1 h2 h3 h6
    exact ⟨by omega, by omega, by omega, h4, h5, by omega⟩
  · rintro ⟨h1, h2, h3, h4, h5, h6⟩
    exact ⟨by simp only; omega, by simp only; omega, by simp only; omega, h4, h5, by
      simp only; omega⟩

theorem peak_fresh {payload : Bytes} {p : Portion} {s' : Reader}
    (h : Consumes T { rest := payload } p s') : s'.peak = p.usage.depth := by
  rw [h.state]
  simp only [Reader.after, peakOf]
  split <;> omega

theorem list_emit_ne_nil {W : Type} {emit : W → Emit} {ws : List W} {b : Bytes}
    (h : addV2List emit ws = .ok b) : b ≠ [] := by
  obtain ⟨a, c, ha, -, rfl⟩ := addV2List_eq_ok.1 h
  obtain ⟨-, rfl⟩ := addU32_eq_ok.1 ha
  intro hnil
  have hlen := congrArg List.length hnil
  rw [List.length_append, length_littleEndian, List.length_nil] at hlen
  omega

/-- The payload of a program within the limits is read back whole. -/
theorem readProgram_complete {program : WireProgram} {b : Bytes} (hw : program.WithinLimits T)
    (h : addProgram program = .ok b) :
    ∃ s', readProgram T { rest := b } = .ok (programMeaning T program, s') ∧ s'.rest = [] := by
  obtain ⟨b1, b2, h1, h2, rfl⟩ := emit_append_eq_ok.1 h
  have hJ := consumes_joining T
  have hfresh : Consumes T { rest := b1 ++ b2 } ⟨b1 ++ b2, programUsage T program⟩
      (({ rest := b1 ++ b2 } : Reader).after ⟨b1 ++ b2, programUsage T program⟩ []) :=
    ⟨(List.append_nil _).symm, room_fresh.2 hw.usage, rfl⟩
  obtain ⟨s1, hs1, hs2⟩ := (consumes_splitting T).add (a := ⟨b1, sectionsUsage T program⟩)
    (b := ⟨b2, stmtsUsage T program.transformInits⟩) hfresh
  have hsections := sections_delivers hw.arity h1 _ s1 (fueled_full hs1)
  have hinits := stmts_delivers h2 _ _ (fueled_full hs2)
  refine ⟨_, readProgram_eq_ok.2 ⟨_, s1, hsections, Or.inr ⟨?_, _, hinits, ?_⟩⟩, rfl⟩
  · rw [hs2.rest]
    intro hnil
    exact list_emit_ne_nil h2 (List.append_eq_nil_iff.1 hnil).1
  · rw [peak_fresh hfresh]
    rfl

/-- What is read whole from a payload is the meaning of a program within the limits whose encoding
the payload is, with its last section or without. -/
theorem readProgram_sound {payload : Bytes} {p : Mir.Program} {s' : Reader}
    (h : readProgram T { rest := payload } = .ok (p, s')) (hend : s'.rest = []) :
    (p.hasTransformInits = true ∧ ∃ program : WireProgram, program.WithinLimits T ∧
      programMeaning T program = p ∧ addProgram program = .ok payload) ∨
    (p.hasTransformInits = false ∧ ∃ program : WireProgram, (sectionsUsage T program).Within T ∧
      olderMeaning T program = p ∧ addSections program = .ok payload) := by
  obtain ⟨q, s1, hq, hcase⟩ := readProgram_eq_ok.1 h
  obtain ⟨p1, ⟨program, hinits, harity, rfl, hb1, hu1⟩, hs1⟩ := sections_gathers _ q s1 hq
  rcases hcase with ⟨hrest, rfl, rfl⟩ | ⟨-, inits, hread, rfl⟩
  · refine Or.inr ⟨rfl, program, ?_, ?_, ?_⟩
    · rw [← hu1]
      exact room_fresh.1 hs1.room
    · rw [olderMeaning, peak_fresh hs1, hu1]
    · rw [hb1, show payload = p1.bytes ++ s'.rest from hs1.rest, hrest, List.append_nil]
  · obtain ⟨p2, ⟨stmts, rfl, hb2, hu2⟩, hs2⟩ := stmts_gathers s1 inits s' hread
    have hboth := (consumes_joining T).add hs1 hs2
    have husage : (p1 + p2).usage = programUsage T { program with transformInits := stmts } := by
      rw [Portion.add_usage, hu1, hu2]
      rfl
    refine Or.inl ⟨rfl, { program with transformInits := stmts }, ⟨?_, harity⟩, ?_, ?_⟩
    · rw [← husage]
      exact room_fresh.1 hboth.room
    · rw [programMeaning, peak_fresh hboth, husage]
      rfl
    · have hrest : payload = (p1 + p2).bytes ++ s'.rest := hboth.rest
      rw [hrest, hend, List.append_nil]
      exact emit_append_eq_ok.2 ⟨_, _, hb1, hb2, rfl⟩

/-! ### Documents -/

theorem envelope_eq_ok {sections : Emit} {wire : Bytes} :
    (.ok kMagic : Emit) ++ (sections >>= encodeBase64) = .ok wire ↔ ∃ payload,
      sections = .ok payload ∧ payload.length ≤ 201326586 ∧ wire = kMagic ++ base64Chars payload := by
  rw [emit_append_eq_ok]
  constructor
  · rintro ⟨a, b, ha, hb, rfl⟩
    cases ha
    obtain ⟨payload, rfl, hb⟩ := bind_eq_ok_iff.1 hb
    obtain ⟨hlen, rfl⟩ := encodeBase64_eq_ok.1 hb
    exact ⟨payload, rfl, hlen, rfl⟩
  · rintro ⟨payload, rfl, hlen, rfl⟩
    exact ⟨kMagic, base64Chars payload, rfl, encodeBase64_eq_ok.2 ⟨hlen, rfl⟩, rfl⟩

theorem encode_eq_ok {program : WireProgram} {wire : Bytes} :
    encode program = .ok wire ↔ ∃ payload, addProgram program = .ok payload ∧
      payload.length ≤ 201326586 ∧ wire = kMagic ++ base64Chars payload :=
  envelope_eq_ok

/-- A document from before the last section existed: the envelope around the other sections. -/
def encodeOlder (program : WireProgram) : Emit :=
  .ok kMagic ++ (addSections program >>= encodeBase64)

theorem encodeOlder_eq_ok {program : WireProgram} {wire : Bytes} :
    encodeOlder program = .ok wire ↔ ∃ payload, addSections program = .ok payload ∧
      payload.length ≤ 201326586 ∧ wire = kMagic ++ base64Chars payload :=
  envelope_eq_ok

/-! ### Extensions -/

/-- The same state with more bytes behind. -/
def Reader.extend (s : Reader) (z : Bytes) : Reader :=
  { s with rest := s.rest ++ z }

theorem consumes_extend {s s' : Reader} {p : Portion} (z : Bytes) (h : Consumes T s p s') :
    Consumes T (s.extend z) p (s'.extend z) := by
  refine ⟨?_, ⟨h.room.values, h.room.stringBytes, h.room.listBytes, h.room.longestString,
    h.room.longestList, h.room.depth⟩, ?_⟩
  · rw [Reader.extend, Reader.extend, h.rest, List.append_assoc]
  · rw [h.state]
    rfl

theorem readSections_extend {q : Mir.Program} {s s' : Reader} (z : Bytes)
    (h : readSections T s = .ok (q, s')) :
    readSections T (s.extend z) = .ok (q, s'.extend z) := by
  obtain ⟨p, ⟨program, -, harity, rfl, hb, hu⟩, hs⟩ := sections_gathers s q s' h
  have hdelivers : Delivers (Fueled T (2 * T.nestingLimit)) (readSections T)
      ⟨p.bytes, sectionsUsage T program⟩ (sectionsMeaning program) := sections_delivers harity hb
  rw [← hu] at hdelivers
  exact hdelivers _ _ (fueled_full (consumes_extend z hs))

theorem readStmts_extend {v : List Mir.Stmt} {s s' : Reader} (z : Bytes)
    (h : readStmts T s = .ok (v, s')) : readStmts T (s.extend z) = .ok (v, s'.extend z) := by
  obtain ⟨p, ⟨stmts, rfl, hb, hu⟩, hs⟩ := stmts_gathers s v s' h
  have hdelivers : Delivers (Fueled T (2 * T.nestingLimit)) (readStmts T)
      ⟨p.bytes, stmtsUsage T stmts⟩ (stmts.map stmtMeaning) := stmts_delivers hb
  rw [← hu] at hdelivers
  exact hdelivers _ _ (fueled_full (consumes_extend z hs))

/-- A longer payload is accepted too only where the shorter one ends before the last section. -/
theorem readProgram_extend {x z : Bytes} {p q : Mir.Program} {s' t' : Reader} (hz : z ≠ [])
    (hp : readProgram T { rest := x } = .ok (p, s'))
    (hq : readProgram T { rest := x ++ z } = .ok (q, t')) (ht : t'.rest = []) :
    p.hasTransformInits = false ∧ q.hasTransformInits = true ∧
      p = { q with hasTransformInits := false, transformInits := [], nesting := p.nesting } := by
  obtain ⟨r, s1, hr, hcase⟩ := readProgram_eq_ok.1 hp
  obtain ⟨r', t1, hr', hcase'⟩ := readProgram_eq_ok.1 hq
  obtain ⟨_, ⟨program, -, -, hmeaning, -, -⟩, -⟩ := sections_gathers _ r s1 hr
  have hext : readSections T { rest := x ++ z } = .ok (r, s1.extend z) := readSections_extend z hr
  rw [hext] at hr'
  cases hr'
  rcases hcase with ⟨hrest, rfl, rfl⟩ | ⟨-, inits, hread, rfl⟩
  · rcases hcase' with ⟨hrest', -, -⟩ | ⟨-, inits, -, rfl⟩
    · exact absurd (List.append_eq_nil_iff.1 hrest').2 hz
    · subst hmeaning
      exact ⟨rfl, rfl, rfl⟩
  · exfalso
    have hread' := readStmts_extend z hread
    rcases hcase' with ⟨hrest', -, -⟩ | ⟨-, inits', hinits', -⟩
    · exact hz (List.append_eq_nil_iff.1 hrest').2
    · rw [hread'] at hinits'
      cases hinits'
      exact hz (List.append_eq_nil_iff.1 ht).2

/-- A quartet with another one behind it has no padding. -/
theorem base64Chars_unpadded {y rest : Bytes} {c0 c1 c2 c3 : UInt8}
    (hy : base64Chars y = c0 :: c1 :: c2 :: c3 :: rest) (hrest : rest ≠ []) : c3 ≠ 61 := by
  have hdec := decodeQuartets_base64Chars y 0
  rw [hy, decodeQuartets] at hdec
  obtain ⟨bytes, hquartet, -⟩ := bind_eq_ok_iff.1 hdec
  have hlast : rest.isEmpty = false := by
    cases rest with
    | nil => exact absurd rfl hrest
    | cons c cs => rfl
  obtain ⟨a, b, -, -, -, -, hcase⟩ := decodeQuartet_cases hquartet
  rcases hcase with ⟨c, d, -, hd, -, rfl, -⟩ | ⟨hl, -⟩ | ⟨hl, -⟩
  · exact base64Char_ne_padding d hd
  · exact absurd hl (by rw [hlast]; decide)
  · exact absurd hl (by rw [hlast]; decide)

/-- A longer envelope is that of a longer payload. -/
theorem base64Chars_extend {x y t : Bytes} (ht : t ≠ [])
    (h : base64Chars y = base64Chars x ++ t) : ∃ z, z ≠ [] ∧ y = x ++ z := by
  induction x using base64Chars.induct generalizing y with
  | case1 a b c rest ih =>
    have hdec := decodeQuartets_base64Chars y 0
    have hchars := base64Chars_three a b c rest
    rw [hchars] at h
    simp only [List.cons_append] at h
    have hquartet := decodeQuartets_base64Chars [a, b, c] 0
    rw [base64Chars_three] at hquartet
    rw [h, decodeQuartets] at hdec
    obtain ⟨bytes, hq, hdec⟩ := bind_eq_ok_iff.1 hdec
    obtain ⟨tail, htail, hy⟩ := bind_eq_ok_iff.1 hdec
    have ha := UInt8.toNat_lt a
    have hb := UInt8.toNat_lt b
    have hc := UInt8.toNat_lt c
    rw [decodeQuartets, decodeQuartet_three _ _ (by omega) (by omega) (by omega) (by omega)]
      at hquartet
    change Except.ok (_ ++ []) = _ at hquartet
    rw [List.append_nil] at hquartet
    rw [decodeQuartet_three _ _ (by omega) (by omega) (by omega) (by omega), hquartet] at hq
    cases hq
    cases hy
    have hlen : (base64Chars rest ++ t).length % 4 = 0 := by
      have hylen := congrArg List.length h
      rw [length_base64Chars] at hylen
      simp only [List.length_cons] at hylen
      omega
    have htail' := base64Chars_decodeQuartets hlen htail
    obtain ⟨z, hz, rfl⟩ := ih htail'.symm
    exact ⟨z, hz, rfl⟩
  | case2 a b =>
    rw [base64Chars_two] at h
    exact absurd rfl (base64Chars_unpadded h ht)
  | case3 a =>
    rw [base64Chars_one] at h
    exact absurd rfl (base64Chars_unpadded h ht)
  | case4 =>
    refine ⟨y, ?_, rfl⟩
    rintro rfl
    exact ht h.symm

/-! ### Documents and programs -/

theorem programWire_bytes {program : WireProgram} {b : Bytes} (h : addProgram program = .ok b) :
    addProgram (programWire (programMeaning T program)) = .ok b := by
  obtain ⟨b1, b2, h1, h2, rfl⟩ := emit_append_eq_ok.1 h
  refine emit_append_eq_ok.2 ⟨b1, b2, ?_, stmt_canonical.list _ _ h2, rfl⟩
  exact sections_canonical ⟨rfl, rfl, rfl, rfl, rfl, rfl⟩ h1

theorem decode_encode {program : WireProgram} {wire : Bytes} (hw : program.WithinLimits T)
    (h : encode program = .ok wire) : decode T wire = .ok (programMeaning T program) := by
  obtain ⟨payload, hp, hlen, rfl⟩ := encode_eq_ok.1 h
  obtain ⟨s', hread, hend⟩ := readProgram_complete hw hp
  exact decode_eq_ok.2 ⟨payload, s', decodePayload_eq_ok.2 ⟨hlen, rfl⟩, hread, hend⟩

/-- An accepted document is the encoding of what it decodes to, with its last section or without,
and that encoding is a function of the program. -/
theorem encode_decode {wire : Bytes} {p : Mir.Program} (h : decode T wire = .ok p) :
    (p.hasTransformInits = true ∧ encode (programWire p) = .ok wire ∧
      ∃ program : WireProgram, program.WithinLimits T ∧ programMeaning T program = p ∧
        encode program = .ok wire) ∨
    (p.hasTransformInits = false ∧ encodeOlder (programWire p) = .ok wire ∧
      ∃ program : WireProgram, (sectionsUsage T program).Within T ∧ olderMeaning T program = p ∧
        encodeOlder program = .ok wire) := by
  obtain ⟨payload, s', hpayload, hread, hend⟩ := decode_eq_ok.1 h
  obtain ⟨hlen, rfl⟩ := decodePayload_eq_ok.1 hpayload
  rcases readProgram_sound hread hend with ⟨hinits, program, hw, rfl, hp⟩ |
    ⟨hinits, program, hw, rfl, hp⟩
  · refine Or.inl ⟨hinits, ?_, program, hw, rfl, encode_eq_ok.2 ⟨payload, hp, hlen, rfl⟩⟩
    exact encode_eq_ok.2 ⟨payload, programWire_bytes hp, hlen, rfl⟩
  · refine Or.inr ⟨hinits, ?_, program, hw, rfl, encodeOlder_eq_ok.2 ⟨payload, hp, hlen, rfl⟩⟩
    exact encodeOlder_eq_ok.2 ⟨payload,
      sections_canonical ⟨rfl, rfl, rfl, rfl, rfl, rfl⟩ hp, hlen, rfl⟩

theorem decode_injective {wire wire' : Bytes} {p : Mir.Program} (h : decode T wire = .ok p)
    (h' : decode T wire' = .ok p) : wire = wire' := by
  rcases encode_decode h with ⟨hinits, henc, -⟩ | ⟨hinits, henc, -⟩ <;>
    rcases encode_decode h' with ⟨hinits', henc', -⟩ | ⟨hinits', henc', -⟩
  · exact Except.ok.inj (henc.symm.trans henc')
  · rw [hinits] at hinits'
    cases hinits'
  · rw [hinits] at hinits'
    cases hinits'
  · exact Except.ok.inj (henc.symm.trans henc')

theorem decode_extend {wire t : Bytes} {p q : Mir.Program} (ht : t ≠ [])
    (hp : decode T wire = .ok p) (hq : decode T (wire ++ t) = .ok q) :
    p.hasTransformInits = false ∧ q.hasTransformInits = true ∧
      p = { q with hasTransformInits := false, transformInits := [], nesting := p.nesting } := by
  obtain ⟨x, s', hx, hread, -⟩ := decode_eq_ok.1 hp
  obtain ⟨y, t', hy, hread', hend'⟩ := decode_eq_ok.1 hq
  obtain ⟨-, rfl⟩ := decodePayload_eq_ok.1 hx
  obtain ⟨-, hwire⟩ := decodePayload_eq_ok.1 hy
  rw [List.append_assoc, List.append_cancel_left_eq] at hwire
  obtain ⟨z, hz, rfl⟩ := base64Chars_extend ht hwire.symm
  exact readProgram_extend hz hread hread' hend'

/-- The wire records and the accepted documents correspond. -/
structure RoundTrip (T : Target) : Prop where
  /-- A program within the documented limits is decoded from its encoding. -/
  decode_encode : ∀ (program : WireProgram) (wire : Bytes), program.WithinLimits T →
    encode program = .ok wire → decode T wire = .ok (programMeaning T program)
  /-- An accepted document is the encoding of the program it decodes to. -/
  encode_decode : ∀ (wire : Bytes) (p : Mir.Program), decode T wire = .ok p →
    p.hasTransformInits = true → encode (programWire p) = .ok wire ∧
      ∃ program : WireProgram, program.WithinLimits T ∧ programMeaning T program = p ∧
        encode program = .ok wire
  /-- Without its last section it is the encoding of the sections it has. -/
  encode_decode_older : ∀ (wire : Bytes) (p : Mir.Program), decode T wire = .ok p →
    p.hasTransformInits = false → encodeOlder (programWire p) = .ok wire ∧
      ∃ program : WireProgram, (sectionsUsage T program).Within T ∧ olderMeaning T program = p ∧
        encodeOlder program = .ok wire
  /-- Two documents never decode to one program. -/
  injective : ∀ (wire wire' : Bytes) (p : Mir.Program), decode T wire = .ok p →
    decode T wire' = .ok p → wire = wire'
  /-- One accepted document continues another only by the optional section. -/
  extension : ∀ (wire t : Bytes) (p q : Mir.Program), t ≠ [] → decode T wire = .ok p →
    decode T (wire ++ t) = .ok q → p.hasTransformInits = false ∧ q.hasTransformInits = true ∧
      p = { q with hasTransformInits := false, transformInits := [], nesting := p.nesting }

theorem portable_roundTrip (T : Target) : RoundTrip T where
  decode_encode _ _ hw h := decode_encode hw h
  encode_decode wire p h hinits := by
    rcases encode_decode h with ⟨-, h'⟩ | ⟨hnot, -⟩
    · exact h'
    · rw [hinits] at hnot
      cases hnot
  encode_decode_older wire p h hinits := by
    rcases encode_decode h with ⟨hnot, -⟩ | ⟨-, h'⟩
    · rw [hinits] at hnot
      cases hnot
    · exact h'
  injective _ _ _ h h' := decode_injective h h'
  extension _ _ _ _ ht hp hq := decode_extend ht hp hq

/-- The empty program, on a platform with one level of nesting: both spellings are accepted. -/
example : encode {} =
    .ok (ascii "STANLI2:AAAAAAAAAAAAAAAAAAAAAAAAAAAAAAAAAAAAAA==") := by
  decide +kernel

example : ((decode ⟨1, fun _ => 1, fun _ => Nat.one_pos⟩
    (ascii "STANLI2:AAAAAAAAAAAAAAAAAAAAAAAAAAAAAAAA")).toOption.map fun p =>
      (p.hasTransformInits, p.nesting)) = some (false, 1) := by
  decide +kernel

end

end Stanli.PortableMir
