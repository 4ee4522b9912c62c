import Mathlib.Data.List.Infix
import Amed.Generator.Lexer
import Amed.Library.Brackets

/-!
# Which angle brackets are taken for those of a slice

A scan of `resolveLT2` starts at a `<` and takes a `>` for the end of a slice when the `<` that
it is paired with stands at the same parenthesis level and no operator was met at that level.
-/

namespace Amed.Generator

open Brackets

/-! ## What the text shows of a token -/

def Kind.written : Kind → Kind
  | .lt2 => .lt
  | .gt2 => .gt
  | kind => kind

theorem Kind.written_written (kind : Kind) : kind.written.written = kind.written := by
  cases kind <;> rfl

/-- The token as it is written: as `TOKENIZER` returns it. -/
def Token.written (a : Token) : Token := { a with kind := a.kind.written }

/-- The side of a written token among the angle brackets. -/
def angle (a : Token) : Side :=
  match a.kind with
  | .lt => .opening
  | .gt => .closing
  | _ => .plain

/-- The side of a token among the brackets of the slices. -/
def sliceSide (a : Token) : Side :=
  match a.kind with
  | .lt2 => .opening
  | .gt2 => .closing
  | _ => .plain

def parenthesis (a : Token) : Int :=
  match a.kind with
  | .lparen => 1
  | .rparen => -1
  | _ => 0

/-- The parentheses a list opens less those it closes. -/
def depth : List Token → Int
  | [] => 0
  | a :: w => parenthesis a + depth w

/-- The tokens that `resolveLT2` counts as operators. -/
def Token.isOperator (a : Token) : Bool :=
  !(a.kind = .lparen || a.kind = .rparen || a.kind = .lt || a.kind = .gt || a.kind = .colon ||
    a.kind = .id)

/-! ## Where the guess is right -/

/-- A `>` behind the written tokens `e` looks like the end of a slice: the `<` that it is paired
with stands at its level, and so does no operator. -/
structure LooksClosing (e : List Token) : Prop where
  partner : ∃ a o b, e = a ++ o :: b ∧ angle o = .opening ∧ Balanced angle b ∧ depth b = 0
  operator : ∀ a o b, e = a ++ o :: b → o.isOperator = true → depth b ≠ 0

/-- Tokens whose slices are whole and hold no comparison `<`. -/
inductive Sliced : List Token → Prop
  | nil : Sliced []
  | other {a : Token} {w : List Token} : sliceSide a = .plain → Sliced w → Sliced (a :: w)
  | slice {o c : Token} {b w : List Token} : sliceSide o = .opening → sliceSide c = .closing →
      Balanced sliceSide b → (∀ a ∈ b, a.kind ≠ .lt) → Sliced w → Sliced (o :: (b ++ c :: w))

/-- What a scan has examined, as it is written: not the token behind the first `<`. -/
def examined (w : List Token) : List Token := (w.map Token.written).eraseIdx 1

/-- The `>` of a window look like the end of a slice exactly where they are one. -/
def Guessed (window : List Token) : Prop :=
  ∀ u g v, window = u ++ g :: v → g.isGreater = true →
    (g.kind = .gt2 ↔ LooksClosing (examined u))

/-- A scan in which the slices are whole, without a comparison `<` inside, and the guess at each
`>` is right. -/
structure Resolves (window : List Token) : Prop where
  whole : Sliced window
  guessed : Guessed window

/-- No slice ends at the level of the scan. -/
def Unended (window : List Token) : Prop :=
  ∀ u g v, window = u ++ g :: v → g.kind = .gt2 → depth (examined u) ≠ 0

/-- A scan ends behind the first slice that ends at its level, else at the end of the input. -/
def EndsScan (window rest : List Token) : Prop :=
  (∃ u g, window = u ++ [g] ∧ g.kind = .gt2 ∧ depth (examined u) = 0 ∧ Unended u) ∨
    Unended window ∧ rest = []

/-- From each `<` that is met outside a scan, a scan in which the guess is right. -/
inductive Resolvable : List Token → Prop
  | nil : Resolvable []
  | skip {a : Token} {w : List Token} : a.isLess = false → a.kind ≠ .gt2 → Resolvable w →
      Resolvable (a :: w)
  | scan {o first : Token} {w rest : List Token} : o.isLess = true →
      EndsScan (o :: first :: w) rest → Resolves (o :: first :: w) → Resolvable rest →
      Resolvable (o :: first :: (w ++ rest))

/-! ## Lists that are written alike -/

theorem append_singleton_eq_iff {α : Type*} {l a b : List α} {x o : α} :
    l ++ [x] = a ++ o :: b ↔ b = [] ∧ o = x ∧ a = l ∨ ∃ b', b = b' ++ [x] ∧ l = a ++ o :: b' := by
  constructor
  · intro h
    obtain rfl | ⟨b, y, rfl⟩ := b.eq_nil_or_concat'
    · obtain ⟨hl, hx⟩ := List.append_inj' h rfl
      exact Or.inl ⟨rfl, (List.cons.inj hx).1.symm, hl.symm⟩
    · rw [← List.cons_append, ← List.append_assoc] at h
      obtain ⟨hl, hx⟩ := List.append_inj' h rfl
      obtain rfl := (List.cons.inj hx).1
      exact Or.inr ⟨b, rfl, hl⟩
  · rintro (⟨rfl, rfl, rfl⟩ | ⟨b', rfl, rfl⟩)
    · rfl
    · rw [List.append_assoc, List.cons_append]

namespace Token

@[simp] theorem written_kind (a : Token) : a.written.kind = a.kind.written := rfl

theorem written_of_raw {a : Token} (h : a.IsRaw) : a.written = a := by
  obtain ⟨hlt2, hgt2, -⟩ := h
  obtain ⟨kind, value⟩ := a
  cases kind <;> first | rfl | exact absurd rfl hlt2 | exact absurd rfl hgt2

theorem isLess_iff (a : Token) : a.isLess = true ↔ a.written.kind = .lt := by
  rw [written_kind]
  unfold isLess
  cases a.kind <;> decide

theorem isGreater_iff (a : Token) : a.isGreater = true ↔ a.written.kind = .gt := by
  rw [written_kind]
  unfold isGreater
  cases a.kind <;> decide

theorem ne_lt2 {a : Token} (h : a.isLess = false) : a.kind ≠ .lt2 := by
  intro hlt2
  unfold isLess at h
  rw [hlt2] at h
  cases h

/-- What is seen of a token before the `<` are marked. -/
def shape (a : Token) : Token × Bool := (a.written, a.kind = .gt2)

theorem shape_setKind {a : Token} (h : a.kind = .lt) : (setKind .lt2 a).shape = a.shape := by
  obtain ⟨kind, value⟩ := a
  obtain rfl : kind = .lt := h
  rfl

theorem eq_of_shape {a b : Token} (h : a.shape = b.shape) (hlt : a.kind = .lt2 ↔ b.kind = .lt2) :
    a = b := by
  have hwritten : a.written = b.written := congrArg Prod.fst h
  have hgt : a.kind = .gt2 ↔ b.kind = .gt2 := decide_eq_decide.mp (congrArg Prod.snd h)
  have hkind : a.written.kind = b.written.kind := congrArg Token.kind hwritten
  have hvalue : a.written.value = b.written.value := congrArg (fun t : Token => t.value) hwritten
  obtain ⟨kind, value⟩ := a
  obtain ⟨kind', value'⟩ := b
  obtain rfl : value = value' := hvalue
  congr 1
  by_cases hlt2 : kind = .lt2
  · exact hlt2.trans (hlt.mp hlt2).symm
  by_cases hgt2 : kind = .gt2
  · exact hgt2.trans (hgt.mp hgt2).symm
  have hkeep : ∀ k : Kind, k ≠ .lt2 → k ≠ .gt2 → k.written = k := by
    intro k h h'
    cases k <;> first | rfl | exact absurd rfl h | exact absurd rfl h'
  rw [← hkeep kind hlt2 hgt2, ← hkeep kind' (fun h => hlt2 (hlt.mpr h)) fun h => hgt2 (hgt.mpr h)]
  exact hkind

end Token

theorem depth_append (u v : List Token) : depth (u ++ v) = depth u + depth v := by
  induction u with
  | nil => simp [depth]
  | cons a u ih => simp only [List.cons_append, depth, ih, Int.add_assoc]

theorem examined_of_shape {w w' : List Token} (h : w.map Token.shape = w'.map Token.shape) :
    examined w = examined w' := by
  have hwritten := congrArg (List.map Prod.fst) h
  rw [List.map_map, List.map_map] at hwritten
  unfold examined
  exact congrArg (List.eraseIdx · 1) hwritten

/-- A split of a list is one of each list of the same shape. -/
theorem split_of_shape {w w' u v : List Token} {a : Token}
    (h : w.map Token.shape = w'.map Token.shape) (hw : w = u ++ a :: v) :
    ∃ u' a' v', w' = u' ++ a' :: v' ∧ u'.map Token.shape = u.map Token.shape ∧
      a'.shape = a.shape := by
  rw [hw, List.map_append, List.map_cons] at h
  obtain ⟨u', r, rfl, hu, hr⟩ := List.map_eq_append_iff.mp h.symm
  obtain ⟨a', v', rfl, ha, -⟩ := List.map_eq_cons_iff.mp hr
  exact ⟨u', a', v', rfl, hu, ha⟩

theorem kind_of_shape {a a' : Token} (h : a'.shape = a.shape) :
    a'.kind = .gt2 ↔ a.kind = .gt2 := decide_eq_decide.mp (congrArg Prod.snd h)

theorem isLess_of_shape {a a' : Token} (h : a'.shape = a.shape) : a'.isLess = a.isLess := by
  rw [Bool.eq_iff_iff, Token.isLess_iff, Token.isLess_iff,
    show a'.written = a.written from congrArg Prod.fst h]

theorem isGreater_of_shape {a a' : Token} (h : a'.shape = a.shape) (ha : a.isGreater = true) :
    a'.isGreater = true := by
  rw [Token.isGreater_iff] at ha ⊢
  rw [show a'.written = a.written from congrArg Prod.fst h]
  exact ha

theorem Guessed.of_shape {w w' : List Token} (hw : Guessed w)
    (h : w'.map Token.shape = w.map Token.shape) : Guessed w' := by
  intro u g v heq hgreater
  obtain ⟨u', g', v', heq', hu, hg⟩ := split_of_shape h heq
  rw [← kind_of_shape hg, ← examined_of_shape hu]
  exact hw u' g' v' heq' (isGreater_of_shape hg hgreater)

theorem Unended.of_shape {w w' : List Token} (hw : Unended w)
    (h : w'.map Token.shape = w.map Token.shape) : Unended w' := by
  intro u g v heq hkind
  obtain ⟨u', g', v', heq', hu, hg⟩ := split_of_shape h heq
  rw [← examined_of_shape hu]
  exact hw u' g' v' heq' ((kind_of_shape hg).mpr hkind)

theorem Guessed.concat {w : List Token} {a : Token} (hw : Guessed w)
    (ha : a.isGreater = true → (a.kind = .gt2 ↔ LooksClosing (examined w))) :
    Guessed (w ++ [a]) := by
  intro u g v heq hgreater
  obtain ⟨rfl, rfl, rfl⟩ | ⟨v', rfl, hw'⟩ := append_singleton_eq_iff.mp heq
  · exact ha hgreater
  · exact hw u g v' hw' hgreater

theorem Unended.concat {w : List Token} {a : Token} (hw : Unended w)
    (ha : a.kind = .gt2 → depth (examined w) ≠ 0) : Unended (w ++ [a]) := by
  intro u g v heq hkind
  obtain ⟨rfl, rfl, rfl⟩ | ⟨v', rfl, hw'⟩ := append_singleton_eq_iff.mp heq
  · exact ha hkind
  · exact hw u g v' hw' hkind

/-! ## Whole slices -/

theorem sliceSide_closing {a : Token} : sliceSide a = .closing ↔ a.kind = .gt2 := by
  unfold sliceSide
  cases a.kind <;> simp

theorem sliceSide_opening {a : Token} : sliceSide a = .opening ↔ a.kind = .lt2 := by
  unfold sliceSide
  cases a.kind <;> simp

namespace Sliced

theorem append {u v : List Token} (hu : Sliced u) (hv : Sliced v) : Sliced (u ++ v) := by
  induction hu with
  | nil => exact hv
  | other ha _ ih => exact .other ha ih
  | @slice o c b w ho hc hb hlt _ ih =>
      rw [List.cons_append, List.append_assoc, List.cons_append]
      exact .slice ho hc hb hlt ih

/-- Behind a comparison `<` the slices are whole, and before it. -/
theorem split {u v : List Token} {a : Token} (h : Sliced (u ++ a :: v)) (ha : a.kind = .lt) :
    Sliced u ∧ Sliced v := by
  generalize hw : u ++ a :: v = w at h
  induction h generalizing u with
  | nil => simp at hw
  | @other x w hx hsliced ih =>
      obtain ⟨rfl, hw⟩ | ⟨u, rfl, rfl⟩ := List.append_eq_cons_iff.mp hw
      · cases hw
        exact ⟨.nil, hsliced⟩
      · obtain ⟨hu, hv⟩ := ih rfl
        exact ⟨.other hx hu, hv⟩
  | @slice o c b w ho hc hb hlt hsliced ih =>
      have hside : sliceSide a = .plain := by unfold sliceSide; rw [ha]
      obtain ⟨rfl, hw⟩ | ⟨u, rfl, hu⟩ := List.append_eq_cons_iff.mp hw
      · cases hw
        rw [hside] at ho
        cases ho
      obtain ⟨y, rfl, hy⟩ | ⟨y, rfl, hy⟩ := List.append_eq_append_iff.mp hu
      · -- the sign stands behind the slice
        obtain ⟨rfl, hy⟩ | ⟨y, rfl, rfl⟩ := List.cons_eq_append_iff.mp hy
        · cases hy
          rw [hside] at hc
          cases hc
        · obtain ⟨hu, hv⟩ := ih rfl
          exact ⟨.slice ho hc hb hlt hu, hv⟩
      · -- no comparison stands in the slice
        obtain ⟨rfl, hy⟩ | ⟨y, rfl, -⟩ := List.cons_eq_append_iff.mp hy
        · cases hy
          rw [hside] at hc
          cases hc
        · exact absurd ha (hlt a (by simp))

/-- Without a comparison `<` all brackets are matched. -/
theorem balanced {w : List Token} (h : Sliced w) : Balanced sliceSide w := by
  induction h with
  | nil => exact .nil
  | other ha _ ih => exact .plain ha ih
  | slice ho hc hb _ _ ih => exact .pair ho hc hb ih

/-- Behind the opening bracket of a slice its closing one, without a comparison between. -/
theorem closes {u v : List Token} {a : Token} (h : Sliced (u ++ a :: v)) (ha : a.kind = .lt2) :
    ∃ b g w, v = b ++ g :: w ∧ g.kind = .gt2 ∧ Balanced sliceSide b ∧ ∀ x ∈ b, x.kind ≠ .lt := by
  have hside : sliceSide a = .opening := by unfold sliceSide; rw [ha]
  generalize hw : u ++ a :: v = w at h
  induction h generalizing u with
  | nil => simp at hw
  | @other x w hx _ ih =>
      obtain ⟨rfl, hw⟩ | ⟨u, rfl, rfl⟩ := List.append_eq_cons_iff.mp hw
      · cases hw
        rw [hside] at hx
        cases hx
      · exact ih rfl
  | @slice o c b w ho hc hb hlt _ ih =>
      obtain ⟨rfl, hw⟩ | ⟨u, rfl, hu⟩ := List.append_eq_cons_iff.mp hw
      · cases hw
        exact ⟨b, c, w, rfl, sliceSide_closing.mp hc, hb, hlt⟩
      obtain ⟨y, rfl, hy⟩ | ⟨y, rfl, hy⟩ := List.append_eq_append_iff.mp hu
      · obtain ⟨rfl, hy⟩ | ⟨y, rfl, rfl⟩ := List.cons_eq_append_iff.mp hy
        · cases hy
          rw [hside] at hc
          cases hc
        · exact ih rfl
      · obtain ⟨rfl, hy⟩ | ⟨y, rfl, rfl⟩ := List.cons_eq_append_iff.mp hy
        · cases hy
          rw [hside] at hc
          cases hc
        · -- a slice inside the slice
          obtain ⟨b', g, z, rfl, hg, hb'⟩ := hb.closes hside
          exact ⟨b', g, z ++ c :: w, by simp, sliceSide_closing.mp hg, hb',
            fun x hx => hlt x (by simp [hx])⟩

end Sliced

/-- The side of a token when each `<` is paired with the end of a slice. -/
def paired (a : Token) : Side :=
  if a.isLess then .opening else if a.kind = .gt2 then .closing else .plain

theorem paired_opening {a : Token} : paired a = .opening ↔ a.isLess = true := by
  unfold paired Token.isLess
  cases a.kind <;> simp

theorem paired_closing {a : Token} : paired a = .closing ↔ a.kind = .gt2 := by
  unfold paired Token.isLess
  cases a.kind <;> simp

theorem paired_of_shape {a a' : Token} (h : a'.shape = a.shape) : paired a' = paired a := by
  unfold paired
  rw [isLess_of_shape h]
  simp only [kind_of_shape h]

/-- Matchings agree where the sides do. -/
theorem balanced_of_map {side : Token → Side} {f : Token → Token × Bool}
    (hside : ∀ a a', f a' = f a → side a' = side a) {w w' : List Token}
    (h : Balanced side w) (hw : w'.map f = w.map f) : Balanced side w' := by
  induction h generalizing w' with
  | nil =>
      obtain rfl : w' = [] := List.map_eq_nil_iff.mp hw
      exact .nil
  | plain ha _ ih =>
      obtain ⟨a', w', rfl, ha', hw'⟩ := List.map_eq_cons_iff.mp hw
      exact .plain ((hside _ _ ha').trans ha) (ih hw')
  | pair ho hc _ _ ihl ihr =>
      obtain ⟨o', w', rfl, ho', hw'⟩ := List.map_eq_cons_iff.mp hw
      rw [List.map_append, List.map_cons] at hw'
      obtain ⟨l', w', rfl, hl', hw'⟩ := List.map_eq_append_iff.mp hw'
      obtain ⟨c', r', rfl, hc', hr'⟩ := List.map_eq_cons_iff.mp hw'
      exact .pair ((hside _ _ ho').trans ho) ((hside _ _ hc').trans hc) (ihl hl') (ihr hr')

/-- The end of a slice is paired with a `<` in front of the list. -/
def PairedBehind (v : List Token) : Prop :=
  ∃ b g w, v = b ++ g :: w ∧ g.kind = .gt2 ∧ Balanced paired b

theorem PairedBehind.of_shape {v v' : List Token} (h : PairedBehind v)
    (hv : v'.map Token.shape = v.map Token.shape) : PairedBehind v' := by
  obtain ⟨b, g, w, rfl, hg, hb⟩ := h
  rw [List.map_append, List.map_cons] at hv
  obtain ⟨b', r, rfl, hb', hr⟩ := List.map_eq_append_iff.mp hv
  obtain ⟨g', w', rfl, hg', -⟩ := List.map_eq_cons_iff.mp hr
  exact ⟨b', g', w', rfl, (kind_of_shape hg').mpr hg,
    balanced_of_map (fun _ _ => paired_of_shape) hb hb'⟩

/-- A `<` is the start of a slice exactly when it is paired with the end of one. -/
theorem Sliced.start_iff {u v : List Token} {a : Token} (h : Sliced (u ++ a :: v))
    (ha : a.isLess = true) : a.kind = .lt2 ↔ PairedBehind v := by
  constructor
  · intro hlt2
    obtain ⟨b, g, w, rfl, hg, hb, hlt⟩ := h.closes hlt2
    refine ⟨b, g, w, rfl, hg, hb.congr fun x hx => ?_⟩
    have hnot := hlt x hx
    unfold paired sliceSide Token.isLess
    cases hkind : x.kind <;> first | rfl | exact absurd hkind hnot
  · rintro ⟨b, g, w, rfl, hg, hb⟩
    by_contra hlt2
    have hlt : a.kind = .lt := by
      obtain hlt | hlt := Bool.or_eq_true_iff.mp ha
      · exact of_decide_eq_true hlt
      · exact absurd (of_decide_eq_true hlt) hlt2
    -- behind a comparison the slices are whole, so the end needs a start of its own
    have hwhole := (h.split hlt).2.balanced
    rw [List.append_cons] at hwhole
    have hle := hwhole.countP_le
    have hcount := hb.countP_eq
    have hends : b.countP (sliceSide · = .closing) = b.countP (paired · = .closing) := by
      refine List.countP_congr fun x _ => ?_
      simp only [decide_eq_true_eq, sliceSide_closing, paired_closing]
    have hstarts : b.countP (sliceSide · = .opening) ≤ b.countP (paired · = .opening) := by
      refine List.countP_mono_left fun x _ hx => ?_
      simp only [decide_eq_true_eq, sliceSide_opening, paired_opening] at hx ⊢
      unfold Token.isLess
      rw [hx]
      rfl
    simp [sliceSide_closing.mpr hg] at hle
    omega

/-- The `<` of the slices follow from the ends of the slices. -/
theorem Sliced.unique {w w' : List Token} (h : Sliced w) (h' : Sliced w')
    (hshape : w'.map Token.shape = w.map Token.shape) : w' = w := by
  have hlength : w'.length = w.length := by
    simpa only [List.length_map] using congrArg List.length hshape
  refine List.ext_getElem hlength fun i hi' hi => ?_
  have hsame : (w'[i]).shape = (w[i]).shape := by
    have hget := List.getElem_of_eq hshape (by rwa [List.length_map] : i < (w'.map _).length)
    rwa [List.getElem_map, List.getElem_map] at hget
  have hbehind : (w'.drop (i + 1)).map Token.shape = (w.drop (i + 1)).map Token.shape := by
    rw [List.map_drop, List.map_drop, hshape]
  have hsplit := List.take_append_drop i w
  have hsplit' := List.take_append_drop i w'
  rw [List.drop_eq_getElem_cons hi] at hsplit
  rw [List.drop_eq_getElem_cons hi'] at hsplit'
  refine Token.eq_of_shape hsame ?_
  cases hless : (w[i]).isLess with
  | true =>
      rw [← hsplit] at h
      rw [← hsplit'] at h'
      rw [h.start_iff hless, h'.start_iff ((isLess_of_shape hsame).trans hless)]
      exact ⟨fun hp => hp.of_shape hbehind.symm, fun hp => hp.of_shape hbehind⟩
  | false =>
      exact iff_of_false (Token.ne_lt2 ((isLess_of_shape hsame).trans hless))
        (Token.ne_lt2 hless)

/-! ## One way to resolve a text -/

theorem Guessed.left {u v : List Token} (h : Guessed (u ++ v)) : Guessed u := by
  rintro x g y rfl hgreater
  exact h x g (y ++ v) (by simp) hgreater

theorem examined_of_written {w w' : List Token}
    (h : w'.map Token.written = w.map Token.written) : examined w' = examined w :=
  congrArg (List.eraseIdx · 1) h

/-- The guesses follow from what is written. -/
theorem Guessed.shape_eq {w w' : List Token} (h : Guessed w) (h' : Guessed w')
    (hw : w'.map Token.written = w.map Token.written) :
    w'.map Token.shape = w.map Token.shape := by
  have hlength : w'.length = w.length := by
    simpa only [List.length_map] using congrArg List.length hw
  refine List.ext_getElem (by simpa only [List.length_map] using hlength) fun i hi' hi => ?_
  rw [List.length_map] at hi hi'
  rw [List.getElem_map, List.getElem_map]
  have hwritten : (w'[i]).written = (w[i]).written := by
    have hget := List.getElem_of_eq hw (by rwa [List.length_map] : i < (w'.map _).length)
    rwa [List.getElem_map, List.getElem_map] at hget
  have hbefore : examined (w'.take i) = examined (w.take i) := by
    refine examined_of_written ?_
    rw [List.map_take, List.map_take, hw]
  have hsplit := List.take_append_drop i w
  have hsplit' := List.take_append_drop i w'
  rw [List.drop_eq_getElem_cons hi] at hsplit
  rw [List.drop_eq_getElem_cons hi'] at hsplit'
  refine Prod.ext hwritten (decide_eq_decide.mpr ?_)
  by_cases hgreater : (w[i]).isGreater = true
  · have hgreater' : (w'[i]).isGreater = true := by
      rwa [Token.isGreater_iff, hwritten, ← Token.isGreater_iff]
    rw [h _ _ _ hsplit.symm hgreater, h' _ _ _ hsplit'.symm hgreater', hbefore]
  · have hnot : ∀ a : Token, a.kind = .gt2 → a.isGreater = true := fun a ha => by
      unfold Token.isGreater
      rw [ha]
      rfl
    refine iff_of_false (fun hkind => hgreater ?_) fun hkind => hgreater (hnot _ hkind)
    rw [Token.isGreater_iff, ← hwritten, ← Token.isGreater_iff]
    exact hnot _ hkind

/-- No scan of the same text is longer than another. -/
theorem EndsScan.length_le {w w' rest rest' : List Token} (hends : EndsScan w rest)
    (hends' : EndsScan w' rest') (h : Guessed w) (h' : Guessed w')
    (hw : (w' ++ rest').map Token.written = (w ++ rest).map Token.written) :
    w'.length ≤ w.length := by
  by_contra hlonger
  obtain ⟨p, q, rfl, hp⟩ : ∃ p q, w' = p ++ q ∧ p.length = w.length :=
    ⟨w'.take w.length, w'.drop w.length, (List.take_append_drop _ _).symm, by
      rw [List.length_take]; omega⟩
  simp only [List.map_append, List.append_assoc] at hw
  obtain ⟨hpw, hqw⟩ := List.append_inj hw (by rw [List.length_map, List.length_map, hp])
  obtain rfl | ⟨q, z, rfl⟩ := q.eq_nil_or_concat'
  · exact hlonger (by rw [List.append_nil, hp])
  have hshape := h.shape_eq h'.left hpw
  obtain ⟨u, g, rfl, hg, hdepth, -⟩ | ⟨-, rfl⟩ := hends
  · rw [List.map_append] at hshape
    obtain ⟨u', r, rfl, hu, hr⟩ := List.map_eq_append_iff.mp hshape
    obtain ⟨g', s, rfl, hg', hs⟩ := List.map_eq_cons_iff.mp hr
    obtain rfl := List.map_eq_nil_iff.mp hs
    have hkind := (kind_of_shape hg').mpr hg
    rw [← examined_of_shape hu] at hdepth
    obtain ⟨u₂, g₂, hu₂, -, -, hunended⟩ | ⟨hunended, -⟩ := hends'
    · rw [← List.append_assoc] at hu₂
      obtain ⟨rfl, -⟩ := List.append_inj' hu₂ rfl
      exact hunended u' g' q (by simp) hkind hdepth
    · exact hunended u' g' (q ++ [z]) (by simp) hkind hdepth
  · simp at hqw

/-- A text is resolved in one way only. -/
theorem Resolvable.unique {w w' : List Token} (h : Resolvable w) (h' : Resolvable w')
    (hw : w'.map Token.written = w.map Token.written) : w' = w := by
  induction h generalizing w' with
  | nil => exact List.map_eq_nil_iff.mp hw
  | @skip a w ha hgt _ ih =>
      obtain ⟨a', v', rfl, hwritten, hv⟩ := List.map_eq_cons_iff.mp hw
      have hless : a'.isLess = a.isLess := by
        rw [Bool.eq_iff_iff, Token.isLess_iff, Token.isLess_iff, hwritten]
      cases h' with
      | skip ha' hgt' h' =>
          have hshape : a'.shape = a.shape :=
            Prod.ext hwritten (decide_eq_decide.mpr (iff_of_false hgt' hgt))
          rw [ih h' hv, Token.eq_of_shape hshape
            (iff_of_false (Token.ne_lt2 ha') (Token.ne_lt2 ha))]
      | scan ho => rw [ha, ho] at hless; cases hless
  | @scan o first w rest ho hends hres _ ih =>
      cases h' with
      | nil => simp at hw
      | @skip a' w' ha' =>
          have hwritten := (List.cons.inj hw).1
          have hless : a'.isLess = o.isLess := by
            rw [Bool.eq_iff_iff, Token.isLess_iff, Token.isLess_iff, hwritten]
          rw [ha', ho] at hless
          cases hless
      | @scan o' first' w' rest' ho' hends' hres' h' =>
          have hle := hends.length_le hends' hres.guessed hres'.guessed hw
          have hle' := hends'.length_le hends hres'.guessed hres.guessed hw.symm
          have happ : (o' :: first' :: w').map Token.written ++ rest'.map Token.written =
              (o :: first :: w).map Token.written ++ rest.map Token.written := by
            rw [← List.map_append, ← List.map_append]
            exact hw
          obtain ⟨hwindow, hrest⟩ := List.append_inj happ (by
            rw [List.length_map, List.length_map]
            omega)
          have hsame := hres.whole.unique hres'.whole
            (hres.guessed.shape_eq hres'.guessed hwindow)
          calc
            o' :: first' :: (w' ++ rest') = (o' :: first' :: w') ++ rest' := rfl
            _ = (o :: first :: w) ++ rest := by rw [hsame, ih h' hrest]
            _ = o :: first :: (w ++ rest) := rfl

end Amed.Generator
