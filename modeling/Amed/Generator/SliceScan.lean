import Amed.Generator.AngleBrackets

/-!
# What the lexer delivers

The scan of `resolveLT2` guesses at each `>` by what the text shows before it, and marks with it
the last `<` that is not marked yet. So what is delivered resolves the text, and as a text is
resolved in one way only, the lexer delivers an expression exactly when its brackets do.
-/

namespace Amed.Generator

open Brackets

/-! ## The state of a scan -/

/-- The state behind the written tokens `e`. -/
structure Scan.At (s : Scan) (e : List Token) : Prop where
  level : s.level = depth e
  stack : s.stack = (unmatched angle e).map depth
  operators : ∀ d, s.operators d = 0 ↔
    ∀ a o b, e = a ++ o :: b → o.isOperator = true → depth a ≠ d

theorem angle_opening {a : Token} : angle a = .opening ↔ a.kind = .lt := by
  unfold angle
  cases a.kind <;> simp

theorem angle_closing {a : Token} : angle a = .closing ↔ a.kind = .gt := by
  unfold angle
  cases a.kind <;> simp

theorem angle_plain {a : Token} : angle a = .plain ↔ a.kind ≠ .lt ∧ a.kind ≠ .gt := by
  unfold angle
  cases a.kind <;> simp

/-- The kinds that are no operators. -/
theorem Token.isOperator_eq_false {a : Token} {kind : Kind} (h : a.kind = kind)
    (hkind : kind ∈ [Kind.lparen, .rparen, .lt, .gt, .colon, .id]) : a.isOperator = false := by
  unfold Token.isOperator
  rw [h]
  revert hkind
  cases kind <;> decide

theorem parenthesis_eq_zero {a : Token} {kind : Kind} (h : a.kind = kind) (hl : kind ≠ .lparen)
    (hr : kind ≠ .rparen) : parenthesis a = 0 := by
  unfold parenthesis
  rw [h]
  cases kind <;> first | rfl | exact absurd rfl hl | exact absurd rfl hr

theorem parenthesis_of_operator {a : Token} (h : a.isOperator = true) : parenthesis a = 0 := by
  unfold Token.isOperator at h
  unfold parenthesis
  cases hkind : a.kind <;> simp_all

theorem parenthesis_of_opening {a : Token} (h : angle a = .opening) : parenthesis a = 0 :=
  parenthesis_eq_zero (angle_opening.mp h) nofun nofun

theorem depth_split (a b : List Token) {o : Token} (h : parenthesis o = 0) :
    depth (a ++ o :: b) = depth a + depth b := by
  rw [depth_append, depth, h, Int.zero_add]

theorem depth_concat (w : List Token) (a : Token) : depth (w ++ [a]) = depth w + parenthesis a := by
  rw [depth_append, depth, depth, Int.add_zero]

/-- The test of the branch of `GT`. -/
theorem Scan.At.closes_iff {s : Scan} {e : List Token} (h : s.At e) :
    s.stack.head? = some s.level ∧ s.operators s.level = 0 ↔ LooksClosing e := by
  have hpartner : s.stack.head? = some s.level ↔
      ∃ a o b, e = a ++ o :: b ∧ angle o = .opening ∧ Balanced angle b ∧ depth b = 0 := by
    rw [h.stack, h.level, List.head?_map, Option.map_eq_some_iff]
    constructor
    · rintro ⟨before, hhead, hdepth⟩
      obtain ⟨stack, hstack⟩ := List.head?_eq_some_iff.mp hhead
      obtain ⟨o, b, rfl, ho, hb, -⟩ := unmatched_eq_cons_iff.mp hstack
      rw [depth_split before b (parenthesis_of_opening ho)] at hdepth
      exact ⟨before, o, b, rfl, ho, hb, by omega⟩
    · rintro ⟨before, o, b, rfl, ho, hb, hdepth⟩
      refine ⟨before, List.head?_eq_some_iff.mpr ⟨_, unmatched_eq_cons_iff.mpr
        ⟨o, b, rfl, ho, hb, rfl⟩⟩, ?_⟩
      rw [depth_split before b (parenthesis_of_opening ho), hdepth, Int.add_zero]
  have hoperator : s.operators s.level = 0 ↔
      ∀ a o b, e = a ++ o :: b → o.isOperator = true → depth b ≠ 0 := by
    rw [h.operators, h.level]
    constructor
    · rintro hnone a o b rfl ho hdepth
      refine hnone a o b rfl ho ?_
      rw [depth_split a b (parenthesis_of_operator ho), hdepth, Int.add_zero]
    · rintro hnone a o b rfl ho hdepth
      refine hnone a o b rfl ho ?_
      rw [depth_split a b (parenthesis_of_operator ho)] at hdepth
      omega
  rw [hpartner, hoperator]
  exact ⟨fun h => ⟨h.1, h.2⟩, fun h => ⟨h.1, h.2⟩⟩

/-- One more token that is no operator. -/
theorem operators_concat {f : Int → Nat} {e : List Token} {t : Token}
    (h : ∀ d, f d = 0 ↔ ∀ a o b, e = a ++ o :: b → o.isOperator = true → depth a ≠ d)
    (ht : t.isOperator = false) (d : Int) :
    f d = 0 ↔ ∀ a o b, e ++ [t] = a ++ o :: b → o.isOperator = true → depth a ≠ d := by
  rw [h]
  constructor
  · intro hnone a o b heq ho
    obtain ⟨rfl, rfl, rfl⟩ | ⟨b', rfl, he⟩ := append_singleton_eq_iff.mp heq
    · rw [ht] at ho
      cases ho
    · exact hnone a o b' he ho
  · rintro hnone a o b rfl ho
    exact hnone a o (b ++ [t]) (by simp) ho

/-- A token that the scan only counts as a parenthesis, if at all. -/
theorem Scan.At.plain {s s' : Scan} {e : List Token} {t : Token} (h : s.At e)
    (hplain : angle t = .plain) (hoperator : t.isOperator = false)
    (hlevel : s'.level = s.level + parenthesis t) (hstack : s'.stack = s.stack)
    (hoperators : s'.operators = s.operators) : s'.At (e ++ [t]) where
  level := by rw [hlevel, h.level, depth_concat]
  stack := by rw [hstack, h.stack, unmatched_plain hplain]
  operators := by
    rw [hoperators]
    exact operators_concat h.operators hoperator

theorem Scan.At.greater {s s' : Scan} {e : List Token} {t : Token} (h : s.At e)
    (ht : t.kind = .gt) (hlevel : s'.level = s.level) (hstack : s'.stack = s.stack.tail)
    (hoperators : s'.operators = s.operators) : s'.At (e ++ [t]) where
  level := by
    rw [hlevel, h.level, depth_concat, parenthesis_eq_zero ht nofun nofun, Int.add_zero]
  stack := by
    rw [hstack, h.stack, unmatched_closing (angle_closing.mpr ht), List.map_tail]
  operators := by
    rw [hoperators]
    exact operators_concat h.operators (Token.isOperator_eq_false ht (by decide))

theorem Scan.At.operator {s s' : Scan} {e : List Token} {t : Token} (h : s.At e)
    (hoperator : t.isOperator = true) (hplain : angle t = .plain) (hlevel : s'.level = s.level)
    (hstack : s'.stack = s.stack) (hoperators : ∀ d, s'.operators d =
      if d = s.level then s.operators d + 1 else s.operators d) : s'.At (e ++ [t]) where
  level := by rw [hlevel, h.level, depth_concat, parenthesis_of_operator hoperator, Int.add_zero]
  stack := by rw [hstack, h.stack, unmatched_plain hplain]
  operators := by
    intro d
    rw [hoperators]
    constructor
    · intro hzero a o b heq ho
      obtain ⟨rfl, rfl, rfl⟩ | ⟨b', rfl, he⟩ := append_singleton_eq_iff.mp heq
      · rintro rfl
        rw [← h.level, if_pos rfl] at hzero
        omega
      · refine (h.operators d).mp ?_ a o b' he ho
        by_cases hd : d = s.level
        · rw [if_pos hd] at hzero
          omega
        · rwa [if_neg hd] at hzero
    · intro hnone
      have hd : d ≠ s.level := by
        rintro rfl
        exact hnone e t [] rfl hoperator h.level.symm
      rw [if_neg hd]
      refine (h.operators d).mpr ?_
      rintro a o b rfl ho
      exact hnone a o (b ++ [t]) (by simp) ho

/-- What the loop does with a token besides the marks. -/
theorem Scan.At.read {s : Scan} {e : List Token} (t : Token) (h : s.At e) :
    (s.read t).1.At (e ++ [t]) := by
  have hplain : ∀ {k : Kind}, t.kind = k → k ≠ .lt → k ≠ .gt → angle t = .plain :=
    fun hk hlt hgt => angle_plain.mpr ⟨hk ▸ hlt, hk ▸ hgt⟩
  unfold Scan.read Scan.examine
  split <;> rename_i hkind
  · refine h.plain (hplain hkind nofun nofun) ?_ ?_ rfl rfl
    · exact Token.isOperator_eq_false hkind (by decide)
    · unfold parenthesis
      rw [hkind]
  · refine h.plain (hplain hkind nofun nofun) ?_ ?_ rfl rfl
    · exact Token.isOperator_eq_false hkind (by decide)
    · unfold parenthesis
      rw [hkind]
      rfl
  · refine ⟨?_, ?_, operators_concat h.operators ?_⟩
    · rw [depth_concat, ← h.level, parenthesis_of_opening (angle_opening.mpr hkind), Int.add_zero]
    · rw [unmatched_opening (angle_opening.mpr hkind), List.map_cons, ← h.level, ← h.stack]
    · exact Token.isOperator_eq_false hkind (by decide)
  · unfold Scan.examineGT
    split
    · exact h.greater hkind rfl rfl rfl
    · exact h.greater hkind rfl rfl rfl
  · refine h.plain (hplain hkind nofun nofun) ?_ ?_ rfl rfl
    · exact Token.isOperator_eq_false hkind (by decide)
    · rw [parenthesis_eq_zero hkind nofun nofun, Int.add_zero]
  · refine h.plain (hplain hkind nofun nofun) ?_ ?_ rfl rfl
    · exact Token.isOperator_eq_false hkind (by decide)
    · rw [parenthesis_eq_zero hkind nofun nofun, Int.add_zero]
  · rename_i hlparen hrparen hlt hgt hcolon
    refine h.operator ?_ (angle_plain.mpr ⟨hlt, hgt⟩) rfl rfl fun d => rfl
    unfold Token.isOperator
    simp_all

/-! ## The marks -/

theorem modify_length {α : Type*} (u v : List α) (a : α) (f : α → α) :
    (u ++ a :: v).modify u.length f = u ++ f a :: v := by
  induction u with
  | nil => rfl
  | cons x u ih =>
      rw [List.cons_append, List.length_cons, List.modify_succ_cons, ih]
      rfl

/-- The positions of the `<` that are not marked, the last one first. -/
inductive Pending : List Nat → List Token → Prop
  | nil {w : List Token} : (∀ a ∈ w, a.kind ≠ .lt) → Pending [] w
  | cons {ps : List Nat} {u v : List Token} {a : Token} : Pending ps u → a.kind = .lt →
      (∀ x ∈ v, x.kind ≠ .lt) → Pending (u.length :: ps) (u ++ a :: v)

theorem Pending.append {ps : List Nat} {w v : List Token} (h : Pending ps w)
    (hv : ∀ a ∈ v, a.kind ≠ .lt) : Pending ps (w ++ v) := by
  cases h with
  | nil hw => exact .nil fun a ha => (List.mem_append.mp ha).elim (hw a) (hv a)
  | cons hu ha hrest =>
      rw [List.append_assoc, List.cons_append]
      exact .cons hu ha fun a ha => (List.mem_append.mp ha).elim (hrest a) (hv a)

/-- A scan that has read `ts` and goes on. -/
structure Scan.Inside (s : Scan) (ts : List Token) : Prop where
  cache : s.cache.map Token.written = ts
  state : s.At (ts.eraseIdx 1)
  resolves : Resolves s.cache
  unended : Unended s.cache
  pending : Pending s.ltCacheStack s.cache
  stacked : s.stack.length ≤ s.ltCacheStack.length

theorem Token.IsRaw.plain {t : Token} (ht : t.IsRaw) : sliceSide t = .plain := by
  unfold sliceSide
  split
  · exact absurd ‹_› ht.1
  · exact absurd ‹_› ht.2.1
  · rfl

/-- A token that is taken as it is. -/
theorem Resolves.concat {w : List Token} {t : Token} (h : Resolves w) (ht : t.IsRaw)
    (hgreater : t.kind = .gt → ¬LooksClosing (examined w)) : Resolves (w ++ [t]) where
  whole := h.whole.append (.other ht.plain .nil)
  guessed := h.guessed.concat fun hkind => iff_of_false ht.2.1 (hgreater (by
    rw [Token.isGreater_iff, Token.written_of_raw ht] at hkind
    exact hkind))

/-- A slice is marked. -/
theorem Resolves.close {u v : List Token} {a t : Token} (h : Resolves (u ++ a :: v))
    (ha : a.kind = .lt) (hv : ∀ x ∈ v, x.kind ≠ .lt)
    (hlooks : LooksClosing (examined (u ++ a :: v))) :
    Resolves ((u ++ setKind .lt2 a :: v) ++ [setKind .gt2 t]) := by
  have hshape : (u ++ setKind .lt2 a :: v).map Token.shape = (u ++ a :: v).map Token.shape := by
    rw [List.map_append, List.map_cons, Token.shape_setKind ha, List.map_append, List.map_cons]
  refine ⟨?_, (h.guessed.of_shape hshape).concat fun _ => iff_of_true rfl ?_⟩
  · obtain ⟨hu, hslices⟩ := h.whole.split ha
    rw [List.append_assoc]
    exact hu.append (.slice rfl rfl hslices.balanced hv .nil)
  · rw [examined_of_shape hshape]
    exact hlooks

namespace Scan

theorem Inside.looks_iff {s : Scan} {ts : List Token} (h : s.Inside ts) :
    s.stack.head? = some s.level ∧ s.operators s.level = 0 ↔ LooksClosing (examined s.cache) := by
  unfold examined
  rw [h.cache]
  exact h.state.closes_iff

/-- One more token, in front of the marks. -/
theorem Inside.state_read {s : Scan} {ts : List Token} (h : s.Inside ts) (hlen : 2 ≤ ts.length)
    (t : Token) : (s.read t).1.At ((ts ++ [t]).eraseIdx 1) := by
  rw [List.eraseIdx_append_of_lt_length (by omega)]
  exact h.state.read t

/-- The scan goes on. -/
theorem Inside.step {s s' : Scan} {ts : List Token} {t : Token} (h : s.Inside ts)
    (ht : t.IsRaw) (hstate : s'.At ((ts ++ [t]).eraseIdx 1)) (hcache : s'.cache = s.cache ++ [t])
    (hgreater : t.kind = .gt → ¬LooksClosing (examined s.cache))
    (hpending : Pending s'.ltCacheStack s'.cache)
    (hstacked : s'.stack.length ≤ s'.ltCacheStack.length) : s'.Inside (ts ++ [t]) where
  cache := by
    rw [hcache, List.map_append, h.cache, List.map_singleton, Token.written_of_raw ht]
  state := hstate
  resolves := by
    rw [hcache]
    exact h.resolves.concat ht hgreater
  unended := by
    rw [hcache]
    exact h.unended.concat fun hkind => absurd hkind ht.2.1
  pending := hpending
  stacked := hstacked

theorem Inside.level_eq {s : Scan} {ts : List Token} (h : s.Inside ts) :
    s.level = depth (examined s.cache) := by
  unfold examined
  rw [h.cache]
  exact h.state.level

theorem read_gt {s : Scan} {t : Token} (ht : t.kind = .gt) :
    s.read t = { s with cache := s.cache ++ [t] }.examineGT := by
  unfold read examine
  rw [ht]

/-- A `>` that does not look like the end of a slice. -/
theorem Inside.read_of_not_looks {s : Scan} {ts : List Token} {t : Token} (h : s.Inside ts)
    (hkind : t.kind = .gt) (hlooks : ¬LooksClosing (examined s.cache)) :
    s.read t = ({ s with stack := s.stack.tail, cache := s.cache ++ [t] }, false) := by
  rw [read_gt hkind, examineGT, if_neg fun htest => hlooks (h.looks_iff.mp htest)]

/-- A token that is no `>`. -/
theorem read_other (s : Scan) {t : Token} (ht : t.kind ≠ .gt) :
    (s.read t).2 = false ∧ (s.read t).1.cache = s.cache ++ [t] ∧
      (t.kind = .lt ∧ (s.read t).1.stack = s.level :: s.stack ∧
          (s.read t).1.ltCacheStack = s.cache.length :: s.ltCacheStack ∨
        t.kind ≠ .lt ∧ (s.read t).1.stack = s.stack ∧
          (s.read t).1.ltCacheStack = s.ltCacheStack) := by
  unfold read examine
  split <;> rename_i hkind
  · exact ⟨rfl, rfl, Or.inr ⟨hkind ▸ nofun, rfl, rfl⟩⟩
  · exact ⟨rfl, rfl, Or.inr ⟨hkind ▸ nofun, rfl, rfl⟩⟩
  · refine ⟨rfl, rfl, Or.inl ⟨hkind, rfl, ?_⟩⟩
    simp
  · exact absurd hkind ht
  · exact ⟨rfl, rfl, Or.inr ⟨hkind ▸ nofun, rfl, rfl⟩⟩
  · exact ⟨rfl, rfl, Or.inr ⟨hkind ▸ nofun, rfl, rfl⟩⟩
  · rename_i hlt _ _
    exact ⟨rfl, rfl, Or.inr ⟨hlt, rfl, rfl⟩⟩

/-- The brackets of a slice are marked. -/
theorem Inside.close {s : Scan} {ts : List Token} {t : Token} (h : s.Inside ts)
    (hkind : t.kind = .gt) (hlooks : LooksClosing (examined s.cache)) :
    (s.read t).2 = decide (s.level = 0) ∧ Resolves (s.read t).1.cache ∧
      Pending (s.read t).1.ltCacheStack (s.read t).1.cache ∧
      (s.read t).1.stack.length ≤ (s.read t).1.ltCacheStack.length ∧
      ∃ w, (s.read t).1.cache = w ++ [setKind .gt2 t] ∧
        w.map Token.shape = s.cache.map Token.shape := by
  have htest := h.looks_iff.mpr hlooks
  have hpending := h.pending
  have hstacked := h.stacked
  have hresolves := h.resolves
  rw [read_gt hkind]
  unfold examineGT
  dsimp only
  rw [if_pos htest]
  dsimp only
  obtain ⟨outer, hstack⟩ := List.head?_eq_some_iff.mp htest.1
  rw [hstack] at hstacked ⊢
  generalize s.ltCacheStack = ps at hpending hstacked ⊢
  generalize s.cache = w at hpending hresolves hlooks ⊢
  cases hpending with
  | nil => exact absurd hstacked (by simp)
  | @cons ps u v a hu ha hv =>
      have hmarked : ((u ++ a :: v ++ [t]).modify u.length (setKind .lt2)).modify
          ((u ++ a :: v ++ [t]).length - 1) (setKind .gt2) =
            (u ++ setKind .lt2 a :: v) ++ [setKind .gt2 t] := by
        have hlast : (u ++ a :: v ++ [t]).length - 1 = (u ++ setKind .lt2 a :: v).length := by
          simp
        rw [hlast, List.append_assoc, List.cons_append, modify_length, ← List.cons_append,
          ← List.append_assoc, modify_length]
      rw [List.headD_cons, hmarked]
      refine ⟨rfl, hresolves.close ha hv hlooks, ?_, ?_, _, rfl, ?_⟩
      · rw [List.append_assoc]
        refine hu.append fun x hx => ?_
        obtain rfl | hx := List.mem_cons.mp hx
        · exact nofun
        · obtain hx | hx := List.mem_append.mp hx
          · exact hv x hx
          · rw [List.mem_singleton.mp hx]
            exact nofun
      · simpa using hstacked
      · rw [List.map_append, List.map_cons, Token.shape_setKind ha, List.map_append, List.map_cons]

theorem written_of_shape {w w' : List Token} (h : w'.map Token.shape = w.map Token.shape) :
    w'.map Token.written = w.map Token.written := by
  have hfst := congrArg (List.map Prod.fst) h
  rwa [List.map_map, List.map_map] at hfst

theorem written_gt {t : Token} (h : t.kind = .gt) : t.written = t := by
  obtain ⟨kind, value⟩ := t
  obtain rfl : kind = .gt := h
  rfl

theorem written_setKind_gt2 {t : Token} (h : t.kind = .gt) :
    (setKind .gt2 t).written = t.written := by
  obtain ⟨kind, value⟩ := t
  obtain rfl : kind = .gt := h
  rfl

/-- The cache behind a marked slice is written as before. -/
theorem Inside.written_close {s : Scan} {ts w : List Token} {t : Token} (h : s.Inside ts)
    (hkind : t.kind = .gt) (hw : w.map Token.shape = s.cache.map Token.shape) :
    (w ++ [setKind .gt2 t]).map Token.written = ts ++ [t] := by
  rw [List.map_append, written_of_shape hw, h.cache, List.map_singleton,
    written_setKind_gt2 hkind, written_gt hkind]

/-- A scan that is not left goes on. -/
theorem Inside.read {s : Scan} {ts : List Token} (h : s.Inside ts) (hlen : 2 ≤ ts.length)
    {t : Token} (ht : t.IsRaw) (hstay : (s.read t).2 = false) :
    (s.read t).1.Inside (ts ++ [t]) := by
  have hstate := h.state_read hlen t
  by_cases hgt : t.kind = .gt
  · by_cases hlooks : LooksClosing (examined s.cache)
    · obtain ⟨hleave, hresolves, hpending, hstacked, w, hcache, hw⟩ := h.close hgt hlooks
      rw [hstay] at hleave
      have hlevel : s.level ≠ 0 := of_decide_eq_false hleave.symm
      refine ⟨?_, hstate, hresolves, ?_, hpending, hstacked⟩
      · rw [hcache]
        exact h.written_close hgt hw
      · rw [hcache]
        refine (h.unended.of_shape hw).concat fun _ => ?_
        rwa [examined_of_shape hw, ← h.level_eq]
    · rw [h.read_of_not_looks hgt hlooks] at hstate ⊢
      refine h.step ht hstate rfl (fun _ => hlooks) (h.pending.append fun x hx => ?_) ?_
      · rw [List.mem_singleton.mp hx, hgt]
        exact nofun
      · refine Nat.le_trans ?_ h.stacked
        simp
  · obtain ⟨-, hcache, hstacks⟩ := s.read_other hgt
    refine h.step ht hstate hcache (fun hkind => absurd hkind hgt) ?_ ?_
    · rw [hcache]
      obtain ⟨hlt, -, hps⟩ | ⟨hlt, -, hps⟩ := hstacks
      · rw [hps]
        exact .cons h.pending hlt fun x hx => nomatch hx
      · rw [hps]
        exact h.pending.append fun x hx => List.mem_singleton.mp hx ▸ hlt
    · have hle := h.stacked
      obtain ⟨-, hstack, hps⟩ | ⟨-, hstack, hps⟩ := hstacks
      · rw [hstack, hps, List.length_cons, List.length_cons]
        omega
      · rwa [hstack, hps]

/-- A scan is left behind the end of a slice at its level. -/
theorem Inside.read_ends {s : Scan} {ts : List Token} (h : s.Inside ts)
    {t : Token} (hleave : (s.read t).2 = true) (rest : List Token) :
    (s.read t).1.cache.map Token.written = ts ++ [t] ∧ Resolves (s.read t).1.cache ∧
      EndsScan (s.read t).1.cache rest := by
  by_cases hlooks : t.kind = .gt ∧ LooksClosing (examined s.cache)
  · obtain ⟨hgt, hlooks⟩ := hlooks
    obtain ⟨hlevel, hresolves, -, -, w, hcache, hw⟩ := h.close hgt hlooks
    rw [hleave] at hlevel
    refine ⟨?_, hresolves, Or.inl ⟨w, setKind .gt2 t, hcache, rfl, ?_, h.unended.of_shape hw⟩⟩
    · rw [hcache]
      exact h.written_close hgt hw
    · rw [examined_of_shape hw, ← h.level_eq]
      exact of_decide_eq_true hlevel.symm
  · have hstay : (s.read t).2 = false := by
      by_cases hgt : t.kind = .gt
      · rw [h.read_of_not_looks hgt fun hl => hlooks ⟨hgt, hl⟩]
      · exact (s.read_other hgt).1
    rw [hstay] at hleave
    cases hleave

end Scan

/-! ## The loop -/

/-- The loop stops behind a window in which the guess is right. -/
theorem scanLoop_resolves {input : List Token} (hraw : ∀ a ∈ input, a.IsRaw) {s : Scan}
    {ts : List Token} (h : s.Inside ts) (hlen : 2 ≤ ts.length) :
    ∃ seg rest window, input = seg ++ rest ∧ window.map Token.written = ts ++ seg ∧
      Resolves window ∧ EndsScan window rest ∧
        (scanLoop input s = ⟨rest, window⟩ ∨
          rest = [] ∧ scanLoop input s = ⟨[], window ++ [endOfInput]⟩) := by
  induction input generalizing s ts with
  | nil =>
      refine ⟨[], [], s.cache, rfl, ?_, h.resolves, Or.inr ⟨h.unended, rfl⟩, Or.inr ⟨rfl, ?_⟩⟩
      · rw [List.append_nil]
        exact h.cache
      · have hcache := (s.read_other (t := endOfInput) nofun).2.1
        unfold scanLoop
        rw [hcache]
  | cons t input ih =>
      have ht : t.IsRaw := hraw t List.mem_cons_self
      have hinput : ∀ a ∈ input, a.IsRaw := fun a ha => hraw a (List.mem_cons_of_mem t ha)
      cases hread : s.read t with
      | mk s' leave =>
          cases leave with
          | false =>
              have hstep := h.read hlen ht (by rw [hread])
              rw [hread] at hstep
              obtain ⟨seg, rest, window, rfl, hwindow, hres, hends, hloop⟩ :=
                ih hinput hstep (by
                  rw [List.length_append]
                  exact Nat.le_add_right_of_le hlen)
              refine ⟨t :: seg, rest, window, rfl, ?_, hres, hends, ?_⟩
              · rw [hwindow, List.append_assoc]
                rfl
              · unfold scanLoop
                rw [hread]
                exact hloop
          | true =>
              obtain ⟨hwindow, hres, hends⟩ := h.read_ends (by rw [hread]) input
              rw [hread] at hwindow hres hends
              refine ⟨[t], input, s'.cache, rfl, hwindow, hres, hends, Or.inl ?_⟩
              unfold scanLoop
              rw [hread]

/-- The state in which the loop is entered. -/
theorem inside_start {o first : Token} (ho : o.kind = .lt) (hfirst : first.isAngle = false)
    (hraw : first.IsRaw) : (Scan.start 0 [o, first]).Inside [o, first] := by
  obtain ⟨hless, hgreater⟩ := Bool.or_eq_false_iff.mp hfirst
  have hplain : o.IsRaw := by
    unfold Token.IsRaw
    rw [ho]
    exact ⟨nofun, nofun, nofun⟩
  have hgt : ∀ u g v, [o, first] = u ++ g :: v → g.isGreater = false := by
    intro u g v heq
    obtain ⟨rfl, h⟩ | ⟨u, rfl, h⟩ := List.cons_eq_append_iff.mp heq
    · obtain rfl := (List.cons.inj h).1
      unfold Token.isGreater
      rw [ho]
      rfl
    · obtain ⟨rfl, h⟩ | ⟨u, rfl, h⟩ := List.cons_eq_append_iff.mp h
      · obtain rfl := (List.cons.inj h).1
        exact hgreater
      · simp at h
  refine ⟨?_, ⟨?_, ?_, fun d => ?_⟩, ⟨?_, ?_⟩, ?_, ?_, Nat.le_refl 1⟩
  · change [o.written, first.written] = _
    rw [Token.written_of_raw hplain, Token.written_of_raw hraw]
  · change (0 : Int) = (parenthesis o) + 0
    rw [parenthesis_of_opening (angle_opening.mpr ho)]
    rfl
  · have hone := unmatched_opening (l := []) (angle_opening.mpr ho)
    change [(0 : Int)] = (unmatched angle [o]).map depth
    rw [show [o] = [] ++ [o] from rfl, hone]
    rfl
  · refine iff_of_true rfl ?_
    rintro a x b heq hx
    obtain ⟨rfl, h⟩ | ⟨a, rfl, h⟩ := List.cons_eq_append_iff.mp heq
    · obtain rfl := (List.cons.inj h).1
      rw [Token.isOperator_eq_false ho (by decide)] at hx
      cases hx
    · simp at h
  · exact .other hplain.plain (.other hraw.plain .nil)
  · intro u g v heq hg
    rw [hgt u g v heq] at hg
    cases hg
  · intro u g v heq hg
    have hnot := hgt u g v heq
    unfold Token.isGreater at hnot
    rw [hg] at hnot
    cases hnot
  · refine .cons (u := []) (.nil fun a ha => nomatch ha) ho fun x hx => ?_
    rintro hlt
    rw [List.mem_singleton.mp hx] at hlt
    unfold Token.isLess at hless
    rw [hlt] at hless
    cases hless

/-! ## The calls -/

/-- The cache is delivered first. -/
theorem deliver_cache (n : Nat) (input cache : List Token) :
    deliver (cache.length + n) ⟨input, cache⟩ = cache ++ deliver n ⟨input, []⟩ := by
  induction cache with
  | nil => rw [List.length_nil, Nat.zero_add, List.nil_append]
  | cons a cache ih =>
      rw [List.length_cons, Nat.succ_add, List.cons_append, ← ih]
      rfl

/-- Where the cache holds something the calls go on from it. -/
theorem deliver_of_resolve {n : Nat} {input : List Token} {o : Token} {lexer : Lexer}
    (ho : o.kind = .lt) (hresolve : resolveLT2 ⟨input, [o]⟩ = lexer) (hcache : lexer.cache ≠ []) :
    deliver (n + 1) ⟨o :: input, []⟩ = deliver (n + 1) lexer := by
  have hcall : expressionLexer ⟨o :: input, []⟩ = lexer.shift := by
    unfold expressionLexer
    dsimp only [nextToken]
    rw [if_pos ho, hresolve]
  have hshift : expressionLexer lexer = lexer.shift := by
    unfold expressionLexer
    split
    · rfl
    · exact absurd ‹_› hcache
  unfold deliver
  rw [hcall, hshift]

/-- What is delivered is the text, resolved. -/
theorem deliver_resolves {input : List Token} (hraw : ∀ a ∈ input, a.IsRaw)
    (hfollowed : Followed input) :
    ∃ w, w.map Token.written = input ∧ Resolvable w ∧
      deliver (input.length + 1) ⟨input, []⟩ = w ++ [endOfInput] := by
  induction hn : input.length using Nat.strongRecOn generalizing input with
  | ind n ih =>
    subst hn
    cases input with
    | nil => exact ⟨[], rfl, .nil, rfl⟩
    | cons o input =>
        have ho : o.IsRaw := hraw o List.mem_cons_self
        have hinput : ∀ a ∈ input, a.IsRaw := fun a ha => hraw a (List.mem_cons_of_mem o ha)
        by_cases hlt : o.kind = .lt
        · have hless : o.isLess = true := by
            unfold Token.isLess
            rw [hlt]
            rfl
          obtain ⟨first, hhead, hplain⟩ := hfollowed [] o input rfl hless
          obtain ⟨input, rfl⟩ := List.head?_eq_some_iff.mp hhead
          have hfirst : first.IsRaw := hinput first List.mem_cons_self
          have hresolve : resolveLT2 ⟨first :: input, [o]⟩ =
              scanLoop input (.start 0 [o, first]) := by
            unfold resolveLT2
            dsimp only [nextToken]
            rw [if_neg hfirst.2.2]
            rfl
          obtain ⟨seg, rest, window, rfl, hwindow, hres, hends, hloop⟩ := scanLoop_resolves
            (fun a ha => hinput a (List.mem_cons_of_mem first ha)) (inside_start hlt hplain hfirst)
            (Nat.le_refl 2)
          have hlength : window.length = seg.length + 2 := by
            simpa only [List.length_map, List.length_append, List.length_cons, List.length_nil,
              Nat.add_comm] using congrArg List.length hwindow
          obtain ⟨o', window, rfl, ho', hrest⟩ := List.map_eq_cons_iff.mp hwindow
          obtain ⟨first', window, rfl, -, hseg⟩ := List.map_eq_cons_iff.mp hrest
          have hless' : o'.isLess = true := by
            rw [Token.isLess_iff, ho']
            exact hlt
          have htail : Followed rest := Followed.tail (u := o :: first :: seg) hfollowed
          obtain ⟨w, hw, hresolvable, hdeliver⟩ := ih rest.length
            (by simp only [List.length_cons, List.length_append]; omega)
            (fun a ha => hinput a (List.mem_cons_of_mem first (List.mem_append_right seg ha)))
            htail rfl
          refine ⟨o' :: first' :: (window ++ w), ?_, .scan hless' ?_ hres hresolvable, ?_⟩
          · rw [← List.cons_append, ← List.cons_append, List.map_append, hwindow, hw]
            rfl
          · refine hends.imp_right fun hend => ⟨hend.1, ?_⟩
            rw [hend.2] at hw
            exact List.map_eq_nil_iff.mp hw
          · have htotal : (o :: first :: (seg ++ rest)).length =
                (o' :: first' :: window).length + rest.length := by
              rw [hlength]
              simp only [List.length_cons, List.length_append]
              omega
            obtain hloop | ⟨rfl, hloop⟩ := hloop
            · rw [deliver_of_resolve hlt (hresolve.trans hloop) (List.cons_ne_nil _ _), htotal,
                Nat.add_assoc, deliver_cache, hdeliver, ← List.append_assoc]
              rfl
            · obtain rfl := List.map_eq_nil_iff.mp hw
              rw [deliver_of_resolve hlt (hresolve.trans hloop) (List.cons_ne_nil _ _), htotal]
              have hall := deliver_cache 0 [] (o' :: first' :: window ++ [endOfInput])
              rw [List.length_append] at hall
              rw [List.append_nil]
              exact hall.trans (List.append_nil _)
        · obtain ⟨w, hw, hres, hdeliver⟩ :=
            ih input.length (Nat.lt_succ_self _) hinput (Followed.tail (u := [o]) hfollowed) rfl
          refine ⟨o :: w, ?_, .skip ?_ ho.2.1 hres, ?_⟩
          · rw [List.map_cons, hw, Token.written_of_raw ho]
          · unfold Token.isLess
            simp [hlt, ho.1]
          · rw [List.length_cons, deliver, List.cons_append, ← hdeliver]
            have hcall : expressionLexer ⟨o :: input, []⟩ = (o, ⟨input, []⟩) := by
              unfold expressionLexer
              dsimp only [nextToken]
              rw [if_neg hlt]
            rw [hcall]

/-! ## The tokens in order -/

/-- The marks are positions of `<`, and there is one for each level on the stack. -/
structure Scan.Sound (s : Scan) : Prop where
  marks : ∀ i ∈ s.ltCacheStack, ∃ a, s.cache[i]? = some a ∧ a.kind = .lt
  nodup : s.ltCacheStack.Nodup
  stacked : s.stack.length ≤ s.ltCacheStack.length

theorem written_setKind_lt2 {t : Token} (h : t.kind = .lt) :
    (setKind .lt2 t).written = t.written := by
  obtain ⟨kind, value⟩ := t
  obtain rfl : kind = .lt := h
  rfl

theorem map_modify_eq {α β : Type*} {l : List α} {i : Nat} {f : α → α} {g : α → β}
    (h : ∀ a, l[i]? = some a → g (f a) = g a) : (l.modify i f).map g = l.map g := by
  refine List.ext_getElem? fun j => ?_
  rw [List.getElem?_map, List.getElem?_map, List.getElem?_modify]
  by_cases hj : i = j
  · subst hj
    cases hget : l[i]? with
    | none => rfl
    | some a => simp [h a hget]
  · simp [hj]

namespace Scan

theorem Sound.getElem?_concat {s : Scan} (h : s.Sound) (t : Token) {i : Nat}
    (hi : i ∈ s.ltCacheStack) : ∃ a, (s.cache ++ [t])[i]? = some a ∧ a.kind = .lt := by
  obtain ⟨a, ha, hlt⟩ := h.marks i hi
  exact ⟨a, by rw [List.getElem?_append_left (List.getElem?_eq_some_iff.mp ha).1, ha], hlt⟩

theorem Sound.close {s : Scan} (h : s.Sound) {t : Token} (hkind : t.kind = .gt)
    (htest : s.stack.head? = some s.level ∧ s.operators s.level = 0) :
    (s.read t).1.Sound ∧
      (s.read t).1.cache.map Token.written = s.cache.map Token.written ++ [t] := by
  have hmarks := fun i => h.getElem?_concat t (i := i)
  have hnodup := h.nodup
  have hstacked := h.stacked
  have hinside : ∀ i ∈ s.ltCacheStack, i < s.cache.length := fun i hi => by
    obtain ⟨a, ha, -⟩ := h.marks i hi
    exact (List.getElem?_eq_some_iff.mp ha).1
  rw [read_gt hkind]
  unfold examineGT
  dsimp only
  rw [if_pos htest]
  obtain ⟨outer, hstack⟩ := List.head?_eq_some_iff.mp htest.1
  rw [hstack] at hstacked ⊢
  generalize s.ltCacheStack = ps at hmarks hnodup hstacked hinside ⊢
  cases ps with
  | nil => exact absurd hstacked (by simp)
  | cons i ps =>
      obtain ⟨hi, hps⟩ := List.nodup_cons.mp hnodup
      obtain ⟨a, ha, hlt⟩ := hmarks i List.mem_cons_self
      rw [List.headD_cons]
      refine ⟨⟨fun j hj => ?_, hps, by simpa using hstacked⟩, ?_⟩
      · obtain ⟨b, hb, hblt⟩ := hmarks j (List.mem_cons_of_mem i hj)
        have hne : i ≠ j := fun hij => hi (hij ▸ hj)
        have hlast : (s.cache ++ [t]).length - 1 ≠ j := by
          have hlt := hinside j (List.mem_cons_of_mem i hj)
          rw [List.length_append, List.length_singleton]
          omega
        refine ⟨b, ?_, hblt⟩
        change (((s.cache ++ [t]).modify i _).modify _ _)[j]? = some b
        rw [List.getElem?_modify_ne _ _ hlast, List.getElem?_modify_ne _ _ hne, hb]
      · change (((s.cache ++ [t]).modify i _).modify _ _).map Token.written = _
        have hne : i ≠ s.cache.length := (hinside i List.mem_cons_self).ne
        rw [map_modify_eq, map_modify_eq, List.map_append, List.map_singleton, written_gt hkind]
        · intro b hb
          obtain rfl := Option.some.inj (ha.symm.trans hb)
          exact written_setKind_lt2 hlt
        · intro b hb
          have hlength : (s.cache ++ [t]).length - 1 = s.cache.length := by simp
          rw [hlength, List.getElem?_modify_ne _ _ hne, List.getElem?_concat_length] at hb
          obtain rfl := Option.some.inj hb
          exact written_setKind_gt2 hkind

/-- A token read keeps the marks, and is the next one of the cache. -/
theorem Sound.read {s : Scan} (h : s.Sound) {t : Token} (ht : t.IsRaw) :
    (s.read t).1.Sound ∧
      (s.read t).1.cache.map Token.written = s.cache.map Token.written ++ [t] := by
  have hconcat : (s.cache ++ [t]).map Token.written = s.cache.map Token.written ++ [t] := by
    rw [List.map_append, List.map_singleton, Token.written_of_raw ht]
  by_cases hgt : t.kind = .gt
  · by_cases htest : s.stack.head? = some s.level ∧ s.operators s.level = 0
    · exact h.close hgt htest
    · have hread : s.read t =
          ({ s with stack := s.stack.tail, cache := s.cache ++ [t] }, false) := by
        rw [read_gt hgt, examineGT, if_neg htest]
      rw [hread]
      refine ⟨⟨fun i hi => h.getElem?_concat t hi, h.nodup, ?_⟩, hconcat⟩
      refine Nat.le_trans ?_ h.stacked
      simp
  · obtain ⟨-, hcache, hstacks⟩ := s.read_other hgt
    rw [hcache]
    refine ⟨?_, hconcat⟩
    obtain ⟨hlt, hstack, hps⟩ | ⟨-, hstack, hps⟩ := hstacks
    · refine ⟨?_, ?_, ?_⟩
      · rw [hps, hcache]
        intro i hi
        obtain rfl | hi := List.mem_cons.mp hi
        · exact ⟨t, by simp, hlt⟩
        · exact h.getElem?_concat t hi
      · rw [hps]
        refine List.nodup_cons.mpr ⟨fun hmem => ?_, h.nodup⟩
        obtain ⟨a, ha, -⟩ := h.marks _ hmem
        exact absurd (List.getElem?_eq_some_iff.mp ha).1 (Nat.lt_irrefl _)
      · rw [hstack, hps]
        exact Nat.succ_le_succ h.stacked
    · refine ⟨?_, ?_, ?_⟩
      · rw [hps, hcache]
        exact fun i hi => h.getElem?_concat t hi
      · rw [hps]
        exact h.nodup
      · rw [hstack, hps]
        exact h.stacked

end Scan

/-- What the lexer is still to deliver, as it is written. -/
def Lexer.toCome (lexer : Lexer) : List Token := lexer.cache.map Token.written ++ lexer.input

/-- The same tokens, but for the end of the input. -/
def UpToEnd (w w' : List Token) : Prop := ∃ k, w' = w ++ List.replicate k endOfInput

theorem UpToEnd.refl (w : List Token) : UpToEnd w w := ⟨0, (List.append_nil w).symm⟩

theorem UpToEnd.trans {u v w : List Token} (h : UpToEnd u v) (h' : UpToEnd v w) : UpToEnd u w := by
  obtain ⟨k, rfl⟩ := h
  obtain ⟨l, rfl⟩ := h'
  exact ⟨k + l, by rw [List.append_assoc, List.replicate_add]⟩

theorem scanLoop_toCome {input : List Token} (hraw : ∀ a ∈ input, a.IsRaw) {s : Scan}
    (h : s.Sound) :
    UpToEnd (s.cache.map Token.written ++ input) (scanLoop input s).toCome ∧
      (∀ a ∈ (scanLoop input s).input, a.IsRaw) ∧
        s.cache.length ≤ (scanLoop input s).cache.length := by
  induction input generalizing s with
  | nil =>
      have hcache := (s.read_other (t := endOfInput) nofun).2.1
      unfold scanLoop Lexer.toCome
      rw [hcache]
      refine ⟨⟨1, ?_⟩, fun a ha => (nomatch ha), ?_⟩
      · rw [List.map_append, List.append_nil, List.append_nil]
        rfl
      · rw [List.length_append]
        exact Nat.le_add_right _ _
  | cons t input ih =>
      have hinput : ∀ a ∈ input, a.IsRaw := fun a ha => hraw a (List.mem_cons_of_mem t ha)
      obtain ⟨hsound, hcache⟩ := h.read (hraw t List.mem_cons_self)
      unfold scanLoop
      cases hread : s.read t with
      | mk s' leave =>
          rw [hread] at hsound hcache
          have hlength : s.cache.length ≤ s'.cache.length := by
            have hlengths := congrArg List.length hcache
            simp only [List.length_append, List.length_map, List.length_singleton] at hlengths
            omega
          cases leave with
          | false =>
              obtain ⟨htoCome, hrest, hle⟩ := ih hinput hsound
              rw [hcache, List.append_assoc] at htoCome
              exact ⟨htoCome, hrest, hlength.trans hle⟩
          | true =>
              refine ⟨?_, hinput, hlength⟩
              unfold Lexer.toCome
              rw [hcache, List.append_assoc]
              exact .refl _

theorem resolveLT2_toCome {input : List Token} (hraw : ∀ a ∈ input, a.IsRaw) {o : Token}
    (ho : o.kind = .lt) :
    UpToEnd (o.written :: input) (resolveLT2 ⟨input, [o]⟩).toCome ∧
      (∀ a ∈ (resolveLT2 ⟨input, [o]⟩).input, a.IsRaw) ∧
        (resolveLT2 ⟨input, [o]⟩).cache ≠ [] := by
  cases input with
  | nil => exact ⟨⟨1, rfl⟩, fun a ha => (nomatch ha), nofun⟩
  | cons first input =>
      have hfirst : first.IsRaw := hraw first List.mem_cons_self
      have hresolve : resolveLT2 ⟨first :: input, [o]⟩ =
          scanLoop input (.start 0 [o, first]) := by
        unfold resolveLT2
        dsimp only [nextToken]
        rw [if_neg hfirst.2.2]
        rfl
      have hsound : (Scan.start 0 [o, first]).Sound :=
        ⟨fun i hi => ⟨o, by rw [List.mem_singleton.mp hi]; rfl, ho⟩, by simp [Scan.start],
          Nat.le_refl 1⟩
      have hloop := scanLoop_toCome (fun a ha => hraw a (List.mem_cons_of_mem first ha)) hsound
      rw [hresolve]
      refine ⟨?_, hloop.2.1, fun hnil => ?_⟩
      swap
      · have hle := hloop.2.2
        rw [hnil] at hle
        cases hle
      have htoCome := hloop.1
      change UpToEnd (o.written :: first.written :: input) _ at htoCome
      rwa [Token.written_of_raw hfirst] at htoCome

/-- A call delivers the next token. -/
theorem expressionLexer_toCome {lexer : Lexer} (hraw : ∀ a ∈ lexer.input, a.IsRaw) :
    UpToEnd lexer.toCome ((expressionLexer lexer).1.written :: (expressionLexer lexer).2.toCome) ∧
      ∀ a ∈ (expressionLexer lexer).2.input, a.IsRaw := by
  obtain ⟨input, cache⟩ := lexer
  cases cache with
  | cons a cache => exact ⟨.refl _, hraw⟩
  | nil =>
      cases input with
      | nil => exact ⟨⟨1, rfl⟩, fun a ha => nomatch ha⟩
      | cons o input =>
          have hinput : ∀ a ∈ input, a.IsRaw := fun a ha => hraw a (List.mem_cons_of_mem o ha)
          have ho : o.written = o := Token.written_of_raw (hraw o List.mem_cons_self)
          unfold expressionLexer
          dsimp only [nextToken]
          by_cases hlt : o.kind = .lt
          · rw [if_pos hlt]
            obtain ⟨htoCome, hrest, hcache⟩ := resolveLT2_toCome hinput hlt
            rw [ho] at htoCome
            generalize resolveLT2 ⟨input, [o]⟩ = lexer at htoCome hrest hcache ⊢
            obtain ⟨rest, cache⟩ := lexer
            cases cache with
            | cons a cache => exact ⟨htoCome, hrest⟩
            | nil => exact absurd rfl hcache
          · rw [if_neg hlt]
            refine ⟨?_, hinput⟩
            change UpToEnd (o :: input) (o.written :: input)
            rw [ho]
            exact .refl _

/-- The marks apart, the tokens of the text are delivered in their order. -/
theorem deliver_written (n : Nat) {lexer : Lexer} (hraw : ∀ a ∈ lexer.input, a.IsRaw) :
    ∃ rest, UpToEnd lexer.toCome ((deliver n lexer).map Token.written ++ rest) := by
  induction n generalizing lexer with
  | zero => exact ⟨lexer.toCome, .refl _⟩
  | succ n ih =>
      obtain ⟨htoCome, hinput⟩ := expressionLexer_toCome hraw
      obtain ⟨rest, k, hrest⟩ := ih hinput
      refine ⟨rest, htoCome.trans ⟨k, ?_⟩⟩
      unfold deliver
      dsimp only
      rw [List.map_cons, List.cons_append, hrest, List.cons_append]

/-- A list without the end of the input is found before its first. -/
theorem eq_of_upToEnd {u v rest : List Token} (h : UpToEnd v (u ++ endOfInput :: rest))
    (hu : ∀ a ∈ u, a.kind ≠ .eof) (hv : ∀ a ∈ v, a.kind ≠ .eof) : v = u := by
  obtain ⟨k, hk⟩ := h
  obtain ⟨y, rfl, hy⟩ | ⟨y, rfl, hy⟩ := List.append_eq_append_iff.mp hk
  · obtain ⟨rfl, -⟩ | ⟨y, rfl, -⟩ := List.cons_eq_append_iff.mp hy
    · exact List.append_nil u
    · exact absurd rfl (hv endOfInput (by simp))
  · cases y with
    | nil => exact (List.append_nil v).symm
    | cons a y =>
        have ha : a ∈ List.replicate k endOfInput := by
          rw [hy]
          exact List.mem_cons_self
        exact absurd (by rw [List.eq_of_mem_replicate ha]; rfl) (hu a (by simp))

/-! ## The expressions -/

/-- What follows a `<` does not depend on the marks. -/
theorem Followed.written {w : List Token} (h : Followed w) : Followed (w.map Token.written) := by
  intro u a v heq hless
  obtain ⟨u', r, rfl, -, hr⟩ := List.map_eq_append_iff.mp heq
  obtain ⟨a', v', rfl, rfl, rfl⟩ := List.map_eq_cons_iff.mp hr
  have hless' : a'.isLess = true := by
    rw [Token.isLess_iff] at hless ⊢
    rwa [Token.written_kind, Token.written_kind, Kind.written_written] at hless
  obtain ⟨b, hb, hplain⟩ := h u' a' v' rfl hless'
  refine ⟨b.written, by rw [List.head?_map, hb]; rfl, ?_⟩
  obtain ⟨kind, value⟩ := b
  cases kind <;> first | rfl | cases hplain

/-- The lexer delivers an expression as it is derived exactly where `TOKENIZER` cuts the text at
its tokens and the guesses that are made in it are right. -/
theorem delivers_iff {w : List Token} (hw : IsExpression w) (text : List Char) :
    Delivers text w ↔ tokens text = w.map Token.written ∧ Resolvable w := by
  have hraw : ∀ a ∈ tokens text, a.IsRaw := tokensBy_isRaw _ text
  have hsolved : tokens text = w.map Token.written →
      ∃ v, v.map Token.written = w.map Token.written ∧ Resolvable v ∧
        deliver (w.length + 1) ⟨tokens text, []⟩ = v ++ [endOfInput] := by
    intro htext
    obtain ⟨v, hv, hresolvable, hdeliver⟩ :=
      deliver_resolves hraw (by rw [htext]; exact hw.followed.written)
    rw [htext, List.length_map, ← htext] at hdeliver
    exact ⟨v, hv.trans htext, hresolvable, hdeliver⟩
  constructor
  · intro hdelivers
    have htext : tokens text = w.map Token.written := by
      obtain ⟨rest, hrest⟩ := deliver_written (w.length + 1)
        (show ∀ a ∈ (Lexer.mk (tokens text) []).input, a.IsRaw from hraw)
      rw [hdelivers, List.map_append, List.append_assoc] at hrest
      refine eq_of_upToEnd hrest (fun a ha => ?_) fun a ha => (hraw a ha).2.2
      obtain ⟨b, hb, rfl⟩ := List.mem_map.mp ha
      have hne := hw.ne_eof b hb
      obtain ⟨kind, value⟩ := b
      cases kind <;> first | exact absurd rfl hne | exact nofun
    obtain ⟨v, -, hresolvable, hdeliver⟩ := hsolved htext
    obtain rfl := List.append_cancel_right (hdeliver.symm.trans hdelivers)
    exact ⟨htext, hresolvable⟩
  · rintro ⟨htext, hresolvable⟩
    obtain ⟨v, hv, hresolvable', hdeliver⟩ := hsolved htext
    rw [hresolvable.unique hresolvable' hv] at hdeliver
    exact hdeliver

/-- The slice of one bit, by a name. -/
def bitSlice : List Token := [⟨.id, ['x']⟩, ⟨.lt2, ['<']⟩, ⟨.id, ['i']⟩, ⟨.gt2, ['>']⟩]

theorem isExpression_bitSlice : IsExpression bitSlice := by
  refine .of_production (show [.n .primaryExpression, .t .lt2, .n .part, .t .gt2] ∈ _ by decide) ?_
  refine .atom ⟨.id, ['x']⟩ (Or.inl rfl) (Or.inl rfl) (.token ⟨.lt2, ['<']⟩ ?_)
  exact .atom ⟨.id, ['i']⟩ (Or.inl rfl) (Or.inr rfl) (.token ⟨.gt2, ['>']⟩ .nil)

/-- `x<i>` is delivered as a slice, and so its brackets are guessed right. -/
theorem resolvable_bitSlice :
    tokens ['x', '<', 'i', '>'] = bitSlice.map Token.written ∧ Resolvable bitSlice :=
  (delivers_iff isExpression_bitSlice ['x', '<', 'i', '>']).mp (by decide)

/-- The slice of five bits, by numbers. -/
def fieldSlice : List Token :=
  [⟨.id, ['x']⟩, ⟨.lt2, ['<']⟩, ⟨.dec, ['7']⟩, ⟨.colon, [':']⟩, ⟨.dec, ['3']⟩, ⟨.gt2, ['>']⟩]

/-- `x<7:3>` is delivered with comparisons, as the number behind the colon counts as an
operator. -/
theorem not_delivers_fieldSlice :
    ¬∀ (text : List Char) (w : List Token), IsExpression w →
      tokens text = w.map Token.written → Delivers text w := by
  intro h
  have hexpression : IsExpression fieldSlice := by
    refine .of_production (show [.n .primaryExpression, .t .lt2, .n .part, .t .colon, .n .part,
      .t .gt2] ∈ _ by decide) ?_
    refine .atom ⟨.id, ['x']⟩ (Or.inl rfl) (Or.inl rfl) (.token ⟨.lt2, ['<']⟩ ?_)
    refine .atom ⟨.dec, ['7']⟩ (Or.inr rfl) (Or.inr rfl) (.token ⟨.colon, [':']⟩ ?_)
    exact .atom ⟨.dec, ['3']⟩ (Or.inr rfl) (Or.inr rfl) (.token ⟨.gt2, ['>']⟩ .nil)
  exact absurd (h ['x', '<', '7', ':', '3', '>'] fieldSlice hexpression (by decide)) (by decide)

end Amed.Generator
