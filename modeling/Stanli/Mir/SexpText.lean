import Mathlib.Data.List.TakeWhile
import Mathlib.Data.Nat.Init
import Stanli.Mir.Sexp

namespace Stanli.Mir.Sexp

/-! ### What the parser does with a text

The parser never runs out of turns (`parseAt_turns`), and what it takes from the front of a text spells
the node it returns (`parse_eq_ok`). -/

/-! ### Blanks -/

theorem drop_length_takeWhile (p : UInt8 → Bool) (text : Bytes) :
    text.drop (text.takeWhile p).length = text.dropWhile p := by
  induction text with
  | nil => rfl
  | cons c text ih =>
    rw [List.takeWhile_cons, List.dropWhile_cons]
    split
    · rw [List.length_cons, List.drop_succ_cons, ih]
    · rfl

theorem skipWs_rest (s : Cursor) : (skipWs s).rest = s.rest.dropWhile isSpace := by
  change s.rest.drop (s.rest.takeWhile isSpace).length = _
  exact drop_length_takeWhile isSpace s.rest

/-- What is skipped is white space. -/
theorem exists_skipped (s : Cursor) :
    ∃ ws, s.rest = ws ++ (skipWs s).rest ∧ ∀ c ∈ ws, isSpace c = true := by
  rw [skipWs_rest]
  exact ⟨s.rest.takeWhile isSpace, List.takeWhile_append_dropWhile.symm,
    fun _ hc => List.mem_takeWhile_imp hc⟩

theorem skipWs_head {s : Cursor} {rest : Bytes} {c : UInt8} (h : (skipWs s).rest = c :: rest) :
    isSpace c = false := by
  have hhead := List.head?_dropWhile_not isSpace s.rest
  rw [← skipWs_rest, h] at hhead
  simpa using hhead

theorem length_skipWs_le (s : Cursor) : (skipWs s).rest.length ≤ s.rest.length := by
  rw [skipWs_rest]
  exact (List.dropWhile_sublist _).length_le

/-! ### Atoms -/

/-- The rest of a quoted string: the bytes that stand for its contents, and the closing quote. -/
inductive Body : Bytes → Bytes → Prop
  | quote : Body [34] []
  | escaped (c : UInt8) {text a : Bytes} (h : Body text a) : Body (92 :: c :: text) (c :: a)
  | plain {c : UInt8} {text a : Bytes} (hq : c ≠ 34) (hb : c ≠ 92) (h : Body text a) :
      Body (c :: text) (c :: a)

theorem quoted_eq_ok {i : ℕ} {text a : Bytes} {s : Cursor} (h : quoted i text = .ok (a, s)) :
    ∃ body, text = body ++ s.rest ∧ Body body a := by
  induction i, text using quoted.induct generalizing a s with
  | case1 i => cases h
  | case2 i rest =>
    cases h
    exact ⟨[34], rfl, .quote⟩
  | case3 i c rest ih =>
    obtain ⟨x, hx, hret⟩ := bind_eq_ok_iff.1 h
    cases hret
    obtain ⟨body, hrest, hbody⟩ := ih hx
    exact ⟨92 :: c :: body, by rw [hrest, List.cons_append, List.cons_append], .escaped c hbody⟩
  | case4 i c rest hq hb ih =>
    rw [quoted] at h
    · obtain ⟨x, hx, hret⟩ := bind_eq_ok_iff.1 h
      cases hret
      obtain ⟨body, hrest, hbody⟩ := ih hx
      by_cases hc : c = 92
      · -- a backslash at the end of the text leaves the string open
        subst hc
        cases rest with
        | nil => cases hx
        | cons d rest => exact absurd rfl (hb d rest rfl)
      · exact ⟨c :: body, by rw [hrest, List.cons_append], .plain hq hc hbody⟩
    · exact hq
    · exact hb

/-- What an atom's text may be: bare, or in quotes. -/
inductive AtomText : Bytes → Bytes → Prop
  | bare {a : Bytes} (ha : a ≠ []) (hbare : ∀ c ∈ a, isDelimiter c = false) : AtomText a a
  | quoted {body a : Bytes} (hbody : Body body a) : AtomText (34 :: body) a

/-- An atom that starts behind the blanks and with no parenthesis. -/
theorem parseAtom_eq_ok {s s' : Cursor} {n : Node} {c : UInt8} {rest : Bytes}
    (hs : s.rest = c :: rest) (hws : isSpace c = false) (hopen : c ≠ 40) (hclose : c ≠ 41)
    (h : parseAtom s = .ok (n, s')) :
    ∃ text a, n = .atom a ∧ s.rest = text ++ s'.rest ∧ AtomText text a := by
  rw [parseAtom, hs] at h
  by_cases hquote : c = 34
  · subst hquote
    obtain ⟨x, hx, hret⟩ := bind_eq_ok_iff.1 h
    cases hret
    obtain ⟨body, hrest, hbody⟩ := quoted_eq_ok hx
    refine ⟨34 :: body, x.1, rfl, ?_, .quoted hbody⟩
    rw [hs, hrest, List.cons_append]
  · have hbare : (!isDelimiter c) = true := by simp [isDelimiter, hopen, hclose, hquote, hws]
    split at h
    · rename_i heq
      cases heq
      exact absurd rfl hquote
    · cases h
      refine ⟨(c :: rest).takeWhile fun c => !isDelimiter c, _, rfl, ?_, .bare ?_ ?_⟩
      · change s.rest = _ ++ s.rest.drop _
        rw [hs, drop_length_takeWhile, List.takeWhile_append_dropWhile]
      · rw [List.takeWhile_cons, if_pos hbare]
        exact List.cons_ne_nil _ _
      · intro d hd
        simpa using List.mem_takeWhile_imp hd

theorem AtomText.ne_nil {text a : Bytes} (h : AtomText text a) : text ≠ [] := by
  cases h with
  | bare ha => exact ha
  | quoted => exact List.cons_ne_nil _ _

/-! ### Turns -/

theorem opening_cases (s : Cursor) :
    (s.rest = [] ∧ opening s = .ended) ∨
    (∃ rest, s.rest = 40 :: rest ∧ opening s = .list ⟨s.position + 1, rest⟩) ∨
    (∃ rest, s.rest = 41 :: rest ∧ opening s = .closed ⟨s.position + 1, rest⟩) ∨
    ∃ c rest, s.rest = c :: rest ∧ c ≠ 40 ∧ c ≠ 41 ∧ opening s = .atom := by
  obtain ⟨position, rest⟩ := s
  cases rest with
  | nil => exact .inl ⟨rfl, rfl⟩
  | cons c rest =>
    by_cases hopen : c = 40
    · subst hopen
      exact .inr (.inl ⟨rest, rfl, rfl⟩)
    · by_cases hclose : c = 41
      · subst hclose
        exact .inr (.inr (.inl ⟨rest, rfl, rfl⟩))
      · refine .inr (.inr (.inr ⟨c, rest, rfl, hopen, hclose, ?_⟩))
        simp [opening, hopen, hclose]

/-- Success leaves less than there was. -/
theorem parse_shortens (fuel : ℕ) :
    (∀ s n s', parseAt fuel s = .ok (n, s') → s'.rest.length < s.rest.length) ∧
    ∀ s ns s', parseKids fuel s = .ok (ns, s') → s'.rest.length < s.rest.length := by
  induction fuel with
  | zero =>
    constructor
    · intro s n s' h
      cases h
    · intro s ns s' h
      cases h
  | succ fuel ih =>
    obtain ⟨ihAt, ihKids⟩ := ih
    constructor
    · intro s n s' h
      have hle := length_skipWs_le s
      rw [parseAt] at h
      obtain ⟨-, hop⟩ | ⟨rest, hrest, hop⟩ | ⟨rest, -, hop⟩ | ⟨c, rest, hrest, hopen, hclose, hop⟩ :=
        opening_cases (skipWs s)
      · rw [hop] at h
        cases h
      · rw [hop] at h
        obtain ⟨x, hx, hret⟩ := bind_eq_ok_iff.1 h
        cases hret
        have hlt := ihKids _ _ _ hx
        rw [hrest, List.length_cons] at hle
        exact Nat.lt_of_lt_of_le (Nat.lt_succ_of_lt hlt) hle
      · rw [hop] at h
        cases h
      · rw [hop] at h
        obtain ⟨text, a, -, htext, hatom⟩ := parseAtom_eq_ok hrest (skipWs_head hrest) hopen hclose h
        have hpos := List.length_pos_iff.2 hatom.ne_nil
        rw [htext, List.length_append] at hle
        omega
    · intro s ns s' h
      have hle := length_skipWs_le s
      rw [parseKids] at h
      have hkid : (parseAt fuel s >>= fun kid => parseKids fuel kid.2 >>= fun kids =>
          pure (kid.1 :: kids.1, kids.2)) = .ok (ns, s') → s'.rest.length < s.rest.length := by
        intro h
        obtain ⟨x, hx, h⟩ := bind_eq_ok_iff.1 h
        obtain ⟨y, hy, hret⟩ := bind_eq_ok_iff.1 h
        cases hret
        exact Nat.lt_trans (ihKids _ _ _ hy) (ihAt _ _ _ hx)
      obtain ⟨-, hop⟩ | ⟨rest, -, hop⟩ | ⟨rest, hrest, hop⟩ | ⟨c, rest, -, -, -, hop⟩ :=
        opening_cases (skipWs s)
      · rw [hop] at h
        cases h
      · rw [hop] at h
        exact hkid h
      · rw [hop] at h
        cases h
        rw [hrest, List.length_cons] at hle
        exact hle
      · rw [hop] at h
        exact hkid h

/-- Two turns for each byte are enough: with more the result is the same. -/
theorem parse_turns (fuel : ℕ) :
    (∀ s, 2 * s.rest.length < fuel → parseAt (fuel + 1) s = parseAt fuel s) ∧
    ∀ s, 2 * s.rest.length + 1 < fuel → parseKids (fuel + 1) s = parseKids fuel s := by
  induction fuel with
  | zero =>
    constructor
    · intro s h
      exact absurd h (Nat.not_lt_zero _)
    · intro s h
      exact absurd h (Nat.not_lt_zero _)
  | succ fuel ih =>
    obtain ⟨ihAt, ihKids⟩ := ih
    constructor
    · intro s hfuel
      have hle := length_skipWs_le s
      rw [parseAt, parseAt]
      obtain ⟨-, hop⟩ | ⟨rest, hrest, hop⟩ | ⟨rest, -, hop⟩ | ⟨c, rest, -, -, -, hop⟩ :=
        opening_cases (skipWs s)
      · rw [hop]
      · rw [hrest, List.length_cons] at hle
        simp only [hop]
        rw [ihKids _ (by simp only; omega)]
      · rw [hop]
      · rw [hop]
    · intro s hfuel
      have hle := length_skipWs_le s
      have hkid : (parseAt (fuel + 1) s >>= fun kid => parseKids (fuel + 1) kid.2 >>= fun kids =>
          (pure (kid.1 :: kids.1, kids.2) : Checked (List Node × Cursor))) =
          (parseAt fuel s >>= fun kid => parseKids fuel kid.2 >>= fun kids =>
            pure (kid.1 :: kids.1, kids.2)) := by
        rw [ihAt s (by omega)]
        cases hx : parseAt fuel s with
        | error e => rfl
        | ok x =>
          have hlt := (parse_shortens fuel).1 _ _ _ hx
          have hkids := ihKids x.2 (by omega)
          change parseKids (fuel + 1) x.2 >>= _ = parseKids fuel x.2 >>= _
          rw [hkids]
      rw [parseKids, parseKids]
      obtain ⟨-, hop⟩ | ⟨rest, -, hop⟩ | ⟨rest, -, hop⟩ | ⟨c, rest, -, -, -, hop⟩ :=
        opening_cases (skipWs s)
      · rw [hop]
      · simp only [hop]
        exact hkid
      · rw [hop]
      · simp only [hop]
        exact hkid

/-- The turns `parse` allows are enough. -/
theorem parseAt_turns (s : Cursor) {fuel : ℕ} (h : 2 * s.rest.length < fuel) :
    parseAt fuel s = parseAt (2 * s.rest.length + 1) s := by
  induction fuel, h using Nat.le_induction with
  | base => rfl
  | succ fuel hle ih => rw [(parse_turns fuel).1 s hle, ih]

/-- More turns keep a success. -/
theorem parse_succ (fuel : ℕ) :
    (∀ s r, parseAt fuel s = .ok r → parseAt (fuel + 1) s = .ok r) ∧
    ∀ s r, parseKids fuel s = .ok r → parseKids (fuel + 1) s = .ok r := by
  induction fuel with
  | zero =>
    constructor
    · intro s r h
      cases h
    · intro s r h
      cases h
  | succ fuel ih =>
    obtain ⟨ihAt, ihKids⟩ := ih
    constructor
    · intro s r h
      rw [parseAt] at h ⊢
      obtain ⟨-, hop⟩ | ⟨rest, -, hop⟩ | ⟨rest, -, hop⟩ | ⟨c, rest, -, -, -, hop⟩ :=
        opening_cases (skipWs s)
      · rwa [hop] at h ⊢
      · rw [hop] at h ⊢
        obtain ⟨x, hx, hret⟩ := bind_eq_ok_iff.1 h
        exact bind_eq_ok_iff.2 ⟨x, ihKids _ _ hx, hret⟩
      · rwa [hop] at h ⊢
      · rwa [hop] at h ⊢
    · intro s r h
      have hkid : (parseAt fuel s >>= fun kid => parseKids fuel kid.2 >>= fun kids =>
            pure (kid.1 :: kids.1, kids.2)) = .ok r →
          (parseAt (fuel + 1) s >>= fun kid => parseKids (fuel + 1) kid.2 >>= fun kids =>
            (pure (kid.1 :: kids.1, kids.2) : Checked (List Node × Cursor))) = .ok r := by
        intro h
        obtain ⟨x, hx, h⟩ := bind_eq_ok_iff.1 h
        obtain ⟨y, hy, hret⟩ := bind_eq_ok_iff.1 h
        exact bind_eq_ok_iff.2 ⟨x, ihAt _ _ hx, bind_eq_ok_iff.2 ⟨y, ihKids _ _ hy, hret⟩⟩
      rw [parseKids] at h ⊢
      obtain ⟨-, hop⟩ | ⟨rest, -, hop⟩ | ⟨rest, -, hop⟩ | ⟨c, rest, -, -, -, hop⟩ :=
        opening_cases (skipWs s)
      · rwa [hop] at h ⊢
      · rw [hop] at h ⊢
        exact hkid h
      · rwa [hop] at h ⊢
      · rw [hop] at h ⊢
        exact hkid h

theorem parseAt_mono {fuel fuel' : ℕ} (hle : fuel ≤ fuel') {s : Cursor} {r : Node × Cursor}
    (h : parseAt fuel s = .ok r) : parseAt fuel' s = .ok r := by
  induction fuel', hle using Nat.le_induction with
  | base => exact h
  | succ k hk ih => exact (parse_succ k).1 _ _ ih

theorem parseKids_mono {fuel fuel' : ℕ} (hle : fuel ≤ fuel') {s : Cursor} {r : List Node × Cursor}
    (h : parseKids fuel s = .ok r) : parseKids fuel' s = .ok r := by
  induction fuel', hle using Nat.le_induction with
  | base => exact h
  | succ k hk ih => exact (parse_succ k).2 _ _ ih

/-! ### Spelling a node -/

mutual

/-- A text that spells a node, with white space in front of it. -/
inductive Spelling : Bytes → Node → Prop
  | atom {ws text a : Bytes} (hws : ∀ c ∈ ws, isSpace c = true) (ha : AtomText text a) :
      Spelling (ws ++ text) (.atom a)
  | list {ws text : Bytes} {kids : List Node} (hws : ∀ c ∈ ws, isSpace c = true)
      (hkids : Spellings text kids) : Spelling (ws ++ 40 :: text) (.list kids)

/-- A text that spells the items of a list and the parenthesis behind them. -/
inductive Spellings : Bytes → List Node → Prop
  | close {ws : Bytes} (hws : ∀ c ∈ ws, isSpace c = true) : Spellings (ws ++ [41]) []
  | kid {text text' : Bytes} {n : Node} {ns : List Node} (hn : Spelling text n)
      (hns : Spellings text' ns) : Spellings (text ++ text') (n :: ns)

end

/-- What the parser takes from the front of the text spells what it returns. -/
theorem parse_spells (fuel : ℕ) :
    (∀ s n s', parseAt fuel s = .ok (n, s') →
      ∃ text, s.rest = text ++ s'.rest ∧ Spelling text n) ∧
    ∀ s ns s', parseKids fuel s = .ok (ns, s') →
      ∃ text, s.rest = text ++ s'.rest ∧ Spellings text ns := by
  induction fuel with
  | zero =>
    constructor
    · intro s n s' h
      cases h
    · intro s ns s' h
      cases h
  | succ fuel ih =>
    obtain ⟨ihAt, ihKids⟩ := ih
    constructor
    · intro s n s' h
      obtain ⟨ws, hws, hskip⟩ := exists_skipped s
      rw [parseAt] at h
      obtain ⟨-, hop⟩ | ⟨rest, hrest, hop⟩ | ⟨rest, -, hop⟩ | ⟨c, rest, hrest, hopen, hclose, hop⟩ :=
        opening_cases (skipWs s)
      · rw [hop] at h
        cases h
      · rw [hop] at h
        obtain ⟨x, hx, hret⟩ := bind_eq_ok_iff.1 h
        cases hret
        obtain ⟨text, htext, hkids⟩ := ihKids _ _ _ hx
        refine ⟨ws ++ 40 :: text, ?_, .list hskip hkids⟩
        change rest = _ at htext
        rw [hws, hrest, htext, List.append_assoc, List.cons_append]
      · rw [hop] at h
        cases h
      · rw [hop] at h
        obtain ⟨text, a, rfl, htext, hatom⟩ := parseAtom_eq_ok hrest (skipWs_head hrest) hopen hclose h
        refine ⟨ws ++ text, ?_, .atom hskip hatom⟩
        rw [hws, htext, List.append_assoc]
    · intro s ns s' h
      obtain ⟨ws, hws, hskip⟩ := exists_skipped s
      have hkid : (parseAt fuel s >>= fun kid => parseKids fuel kid.2 >>= fun kids =>
          pure (kid.1 :: kids.1, kids.2)) = .ok (ns, s') →
          ∃ text, s.rest = text ++ s'.rest ∧ Spellings text ns := by
        intro h
        obtain ⟨x, hx, h⟩ := bind_eq_ok_iff.1 h
        obtain ⟨y, hy, hret⟩ := bind_eq_ok_iff.1 h
        cases hret
        obtain ⟨text, htext, hn⟩ := ihAt _ _ _ hx
        obtain ⟨text', htext', hns⟩ := ihKids _ _ _ hy
        refine ⟨text ++ text', ?_, .kid hn hns⟩
        rw [htext, htext', List.append_assoc]
      rw [parseKids] at h
      obtain ⟨-, hop⟩ | ⟨rest, -, hop⟩ | ⟨rest, hrest, hop⟩ | ⟨c, rest, -, -, -, hop⟩ :=
        opening_cases (skipWs s)
      · rw [hop] at h
        cases h
      · rw [hop] at h
        exact hkid h
      · rw [hop] at h
        cases h
        refine ⟨ws ++ [41], ?_, .close hskip⟩
        rw [hws, hrest, List.append_assoc, List.singleton_append]
      · rw [hop] at h
        exact hkid h

/-- A parse that goes through has used up the text: all of it spells the node, up to white space. -/
theorem parse_eq_ok {text : Bytes} {n : Node} (h : parse text = .ok n) :
    ∃ used ws, text = used ++ ws ∧ Spelling used n ∧ ∀ c ∈ ws, isSpace c = true := by
  obtain ⟨⟨m, s⟩, hx, hend⟩ := bind_eq_ok_iff.1 h
  obtain ⟨used, htext, hn⟩ := (parse_spells _).1 _ _ _ hx
  obtain ⟨ws, hws, hskip⟩ := exists_skipped s
  dsimp only at hend htext
  split at hend
  · rename_i hempty
    cases hend
    rw [List.isEmpty_iff.1 hempty, List.append_nil] at hws
    refine ⟨used, ws, ?_, hn, hskip⟩
    rw [← hws]
    exact htext
  · cases hend

end Stanli.Mir.Sexp
