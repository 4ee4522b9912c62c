import Amed.AArch64.Arguments

/-!
# Sizes of memory operands

A size on its way from the generator's token to what `decode_mem_size` records: `process_size`
splits the token, `quote_value` writes it into the tables, the compiler stores it in the 16 bits of
`amed_db_size`, and the decoder compares it.

## Implementation notes

A token is a list of ASCII characters without a line feed. `MK_SIZE` of this target is 0 for every
name. The decoder records the size in an `int16_t`.
-/

namespace Amed.AArch64

/-! ## The generator -/

/-- The number a string of digits stands for in a base. -/
def numberOf (base : Nat) (digits : List Char) : Nat :=
  digits.foldl (fun n c => base * n + (c.toNat - '0'.toNat)) 0

/-- The substitution of `process_size` that multiplies leading factors; `product` are the digits
in front of the text. -/
def multiplyFactors (product : List Char) : List Char → List Char
  | 'x' :: rest =>
      if rest.takeWhile Char.isDigit = [] then product ++ 'x' :: rest
      else
        multiplyFactors
          (Nat.toDigits 10 (numberOf 10 product * numberOf 10 (rest.takeWhile Char.isDigit)))
          (rest.dropWhile Char.isDigit)
  | text => product ++ text
termination_by text => text.length
decreasing_by
  have hle := (List.dropWhile_sublist Char.isDigit (l := rest)).length_le
  simp only [List.length_cons]
  omega

/-- The hash of `process_size`. -/
structure SizeHash where
  esize : Option (List Char) := none
  size : List Char
  deriving DecidableEq, Repr

/-- The match of `v`, digits, `x` and digits. -/
def matchElements (text : List Char) : Option SizeHash :=
  match text with
  | v :: rest =>
      match rest.dropWhile Char.isDigit with
      | x :: size =>
          let esize := rest.takeWhile Char.isDigit
          if v.toLower = 'v' ∧ x.toLower = 'x' ∧ esize ≠ [] ∧ size ≠ [] ∧
              size.all Char.isDigit then
            some { esize := some esize, size := size }
          else none
      | [] => none
  | [] => none

/-- `process_size`; none where it dies. -/
def processSize (token : List Char) : Option SizeHash :=
  let text :=
    if token.takeWhile Char.isDigit = [] then token
    else multiplyFactors (token.takeWhile Char.isDigit) (token.dropWhile Char.isDigit)
  match matchElements text with
  | some hash => some hash
  | none =>
      if text.map Char.toUpper = ['V', 'L'] ∨ text.map Char.toUpper = ['P', 'L'] then
        some { size := text.map Char.toUpper }
      else if text ≠ [] ∧ text.all Char.isDigit then some { size := text }
      else none

/-! ## The table row -/

/-- A constant of C, decimal or octal; none where the compiler rejects it. -/
def constantOf (digits : List Char) : Option Nat :=
  match digits with
  | '0' :: octal => if octal.all (· < '8') then some (numberOf 8 octal) else none
  | _ => some (numberOf 10 digits)

/-- `MK_SIZE`. -/
def mkSize (_name : List Char) : Nat := 0

/-- What `quote_value` makes of a size, compiled. -/
def quoteSize (size : List Char) : Option Nat :=
  if size.all Char.isDigit then constantOf size else some (mkSize size)

/-- The row of a hash; a member that is not written is 0. -/
def SizeHash.row (hash : SizeHash) : Option DbSize := do
  let esize ← (hash.esize.map quoteSize).getD (some 0)
  let size ← quoteSize hash.size
  some { size := BitVec.ofNat 16 size, esize := BitVec.ofNat 16 esize }

/-! ## What a size stands for -/

/-- The kinds of sizes. -/
inductive Size
  | vl
  | pl
  | elements (esize size : BitVec 16)
  | fixed (size : BitVec 16)
  deriving DecidableEq, Repr

namespace Size

/-- The size in bits. -/
def bits (context : Context) : Size → Nat
  | vl => context.vectorSize
  | pl => context.vectorSize / 8
  | elements esize size => size.toNat * (context.vectorSize / esize.toNat)
  | fixed size => size.toNat

/-- The row that the tables hold. -/
def row : Size → DbSize
  | vl | pl => { size := BitVec.ofNat 16 (mkSize []), esize := 0 }
  | elements esize size => { size := size, esize := esize }
  | fixed size => { size := size, esize := 0 }

/-- The sizes that reach the operand: no name, unless the vectors are too short for it to matter,
and nothing that `int16_t` does not hold. -/
def Recordable (context : Context) : Size → Prop
  | vl => context.vectorSize = 0
  | pl => context.vectorSize < 8
  | elements esize size =>
      if esize = 0 then size = 0 else (elements esize size).bits context < 2 ^ 15
  | fixed size => size.toNat < 2 ^ 15

end Size

/-- The size that a hash stands for. -/
def SizeHash.meaning (hash : SizeHash) : Option Size :=
  if hash.size = ['V', 'L'] then some .vl
  else if hash.size = ['P', 'L'] then some .pl
  else
    match hash.esize, constantOf hash.size with
    | _, none => none
    | none, some size => some (.fixed (BitVec.ofNat 16 size))
    | some esize, some size => (constantOf esize).map fun esize =>
        .elements (BitVec.ofNat 16 esize) (BitVec.ofNat 16 size)

/-! ## From the token to the row -/

/-- A name or a string of digits, with the digits of an element size or without. -/
def SizeHash.WellFormed (hash : SizeHash) : Prop :=
  (hash.esize = none ∧ (hash.size = ['V', 'L'] ∨ hash.size = ['P', 'L'])) ∨
    hash.size.all Char.isDigit = true ∧ ∀ esize ∈ hash.esize, esize.all Char.isDigit = true

theorem matchElements_wellFormed {text : List Char} {hash : SizeHash}
    (h : matchElements text = some hash) : hash.WellFormed := by
  cases text with
  | nil => cases h
  | cons v rest =>
      cases hrest : rest.dropWhile Char.isDigit with
      | nil => simp [matchElements, hrest] at h
      | cons x size =>
          simp only [matchElements, hrest] at h
          split at h
          · rename_i hmatch
            cases h
            refine .inr ⟨hmatch.2.2.2.2, fun esize hesize => ?_⟩
            cases hesize
            exact List.all_takeWhile
          · cases h

theorem processSize_wellFormed {token : List Char} {hash : SizeHash}
    (h : processSize token = some hash) : hash.WellFormed := by
  unfold processSize at h
  generalize (if token.takeWhile Char.isDigit = [] then token else _) = text at h
  dsimp only at h
  cases helements : matchElements text with
  | some elements =>
      rw [helements] at h
      cases h
      exact matchElements_wellFormed helements
  | none =>
      rw [helements] at h
      dsimp only at h
      split at h
      · rename_i hname
        cases h
        exact .inl ⟨rfl, hname⟩
      · split at h
        · rename_i hdigits
          cases h
          exact .inr ⟨hdigits.2, fun esize hesize => by cases hesize⟩
        · cases h

/-- The tables hold the row of what the hash stands for. -/
theorem SizeHash.row_of_meaning {hash : SizeHash} {size : Size} (hhash : hash.WellFormed)
    (h : hash.meaning = some size) : hash.row = some size.row := by
  unfold meaning at h
  obtain ⟨esize, digits⟩ := hash
  rcases hhash with ⟨hesize, hname⟩ | ⟨hdigits, hesize⟩
  · dsimp only at hesize hname
    subst hesize
    rcases hname with rfl | rfl <;> cases h <;> rfl
  · dsimp only at hdigits hesize h
    have hne (name : List Char) (hname : name.all Char.isDigit = false) : digits ≠ name := by
      rintro rfl
      rw [hdigits] at hname
      cases hname
    rw [if_neg (hne _ rfl), if_neg (hne _ rfl)] at h
    have hquote : quoteSize digits = constantOf digits := if_pos hdigits
    cases hsize : constantOf digits with
    | none => cases esize <;> simp [hsize] at h
    | some number =>
        rw [hsize] at h hquote
        cases esize with
        | none =>
            cases h
            simp [row, hquote, Size.row]
        | some esize =>
            have hquote' : quoteSize esize = constantOf esize := if_pos (hesize esize rfl)
            obtain ⟨number', hnumber', rfl⟩ := Option.map_eq_some_iff.mp h
            rw [hnumber'] at hquote'
            simp [row, hquote, hquote', Size.row]

/-! ## What the decoder records -/

/-- No size is a negative number: the comparisons with `SIZE_VL` and `SIZE_PL` fail. -/
theorem decodeMemSize_eq (context : Context) (node : DbSize) :
    decodeMemSize context node =
      if node.esize = 0 then node.size
      else node.size * BitVec.ofNat 16 (context.vectorSize / node.esize.toNat) := by
  have hvl : (node.size.toNat : Int) ≠ sizeVl := by unfold sizeVl; omega
  have hpl : (node.size.toNat : Int) ≠ sizePl := by unfold sizePl; omega
  rw [decodeMemSize, if_neg hvl, if_neg hpl, ite_not]

/-- Sixteen bits of a number, read as `int16_t`, are the number exactly below 2^15. -/
theorem toInt_ofNat_eq_iff (n : Nat) : (BitVec.ofNat 16 n).toInt = (n : Int) ↔ n < 2 ^ 15 := by
  rw [BitVec.toInt_eq_toNat_cond, BitVec.toNat_ofNat]
  split <;> omega

theorem toInt_eq_iff (x : BitVec 16) : x.toInt = (x.toNat : Int) ↔ x.toNat < 2 ^ 15 := by
  have h := toInt_ofNat_eq_iff x.toNat
  rwa [BitVec.ofNat_toNat, BitVec.setWidth_eq] at h

/-- A size is recorded as it stands exactly where it is recordable. -/
theorem decodeMemSize_row_iff (context : Context) (size : Size) :
    (decodeMemSize context size.row).toInt = (size.bits context : Int) ↔
      size.Recordable context := by
  cases size with
  | vl =>
      change (0 : Int) = (context.vectorSize : Int) ↔ context.vectorSize = 0
      omega
  | pl =>
      change (0 : Int) = ((context.vectorSize / 8 : Nat) : Int) ↔ context.vectorSize < 8
      omega
  | fixed size =>
      rw [decodeMemSize_eq]
      exact toInt_eq_iff size
  | elements esize size =>
      have heq : decodeMemSize context (Size.elements esize size).row = if esize = 0 then size
          else size * BitVec.ofNat 16 (context.vectorSize / esize.toNat) :=
        decodeMemSize_eq context _
      rw [heq, Size.Recordable]
      by_cases hesize : esize = 0
      · have hbits : (Size.elements esize size).bits context = 0 := by simp [Size.bits, hesize]
        rw [if_pos hesize, if_pos hesize, hbits]
        exact BitVec.toInt_inj (x := size) (y := 0)
      · have hmul : size * BitVec.ofNat 16 (context.vectorSize / esize.toNat) =
            BitVec.ofNat 16 (size.toNat * (context.vectorSize / esize.toNat)) := by
          apply BitVec.eq_of_toNat_eq
          simp [BitVec.toNat_mul]
        rw [if_neg hesize, if_neg hesize, hmul]
        exact toInt_ofNat_eq_iff _

/-- The size of a token is recorded as it stands. -/
def RecordsSize (context : Context) (token : List Char) : Prop :=
  ∀ hash ∈ processSize token, ∀ row ∈ hash.row, ∀ size ∈ hash.meaning,
    (decodeMemSize context row).toInt = (size.bits context : Int)

/-- `decode_mem_size` records the size that the generator's token stands for exactly where that
size is recordable. -/
theorem recordsSize_iff (context : Context) (token : List Char) :
    RecordsSize context token ↔
      ∀ hash ∈ processSize token, ∀ size ∈ hash.meaning, size.Recordable context := by
  refine forall₂_congr fun hash hhash => ?_
  constructor
  · intro h size hsize
    have hrow := SizeHash.row_of_meaning (processSize_wellFormed hhash) hsize
    exact (decodeMemSize_row_iff context size).mp (h size.row hrow size hsize)
  · intro h row hrow size hsize
    have hrow' := SizeHash.row_of_meaning (processSize_wellFormed hhash) hsize
    obtain rfl : row = size.row := Option.some.inj (hrow.symm.trans hrow')
    exact (decodeMemSize_row_iff context size).mpr (h size hsize)

/-- The full vector of `LDR <Zt>, [<Xn|SP>]`, with vectors of 512 bits: its size is 512, and 0 is
recorded. -/
theorem not_recordsSize_vl :
    ¬∀ (context : Context) (token : List Char), RecordsSize context token := by
  intro h
  have hsize := h { (default : Context) with vectorSize := 512 } ['v', 'l'] ⟨none, ['V', 'L']⟩ rfl
    { size := 0, esize := 0 } rfl .vl rfl
  exact absurd hsize (by decide)

end Amed.AArch64
