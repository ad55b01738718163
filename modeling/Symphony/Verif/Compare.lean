import Symphony.Spec.Compare
import Symphony.Verif.Width

/-!
# Comparisons of strings

All three loops stop at the first index where the strings differ. `memcmp` compares the two bytes
there as unsigned numbers, `strcmp` and `strncmp` subtract them as signed ones, so the three tell
one order exactly where both bytes are below 0x80 or none is.
-/

namespace Symphony

variable {a b : List UInt8} {x y : UInt8}

/-! ## First differences -/

/-- Strings without a difference are equal. -/
theorem firstDifference_none_iff : firstDifference a b = none ↔ a = b := by
  induction a generalizing b with
  | nil => cases b <;> simp [firstDifference]
  | cons x a ih =>
    cases b with
    | nil => simp [firstDifference]
    | cons y b =>
      rw [firstDifference]
      by_cases same : x = y
      · rw [if_pos same, ih, same, List.cons.injEq, and_iff_right rfl]
      · rw [if_neg same, List.cons.injEq]
        simp [same]

/-- The bytes of a difference are in the order of the strings. -/
theorem lt_iff_of_firstDifference (noNulA : 0 ∉ a) (noNulB : 0 ∉ b)
    (found : firstDifference a b = some (x, y)) : x ≠ y ∧ (a < b ↔ x < y) ∧ (b < a ↔ y < x) := by
  induction a generalizing b with
  | nil =>
    cases b with
    | nil => cases found
    | cons y' b =>
      obtain ⟨rfl, rfl⟩ := Prod.mk.inj (Option.some.inj found)
      have nonzero : y' ≠ 0 := fun zero => noNulB (by simp [zero])
      exact ⟨nonzero.symm, by simp [UInt8.pos_iff_ne_zero.mpr nonzero], by simp⟩
  | cons x' a ih =>
    cases b with
    | nil =>
      obtain ⟨rfl, rfl⟩ := Prod.mk.inj (Option.some.inj found)
      have nonzero : x' ≠ 0 := fun zero => noNulA (by simp [zero])
      exact ⟨nonzero, by simp, by simp [UInt8.pos_iff_ne_zero.mpr nonzero]⟩
    | cons y' b =>
      rw [firstDifference] at found
      rw [List.cons_lt_cons_iff, List.cons_lt_cons_iff]
      by_cases same : x' = y'
      · rw [if_pos same] at found
        have rest := ih (fun inside => noNulA (List.mem_cons_of_mem _ inside))
          (fun inside => noNulB (List.mem_cons_of_mem _ inside)) found
        simpa [same] using rest
      · rw [if_neg same] at found
        obtain ⟨rfl, rfl⟩ := Prod.mk.inj (Option.some.inj found)
        exact ⟨same, by simp [same], by simp [Ne.symm same]⟩

/-- A difference within the first characters is one of the strings. -/
theorem firstDifference_of_take {n : Nat}
    (found : firstDifference (a.take n) (b.take n) = some (x, y)) :
    firstDifference a b = some (x, y) := by
  induction n generalizing a b with
  | zero => cases found
  | succ n ih =>
    cases a with
    | nil => cases b <;> exact found
    | cons x' a =>
      cases b with
      | nil => exact found
      | cons y' b =>
        rw [List.take_succ_cons, List.take_succ_cons, firstDifference] at found
        rw [firstDifference]
        by_cases same : x' = y'
        · rw [if_pos same] at found ⊢
          exact ih found
        · rwa [if_neg same] at found ⊢

/-- The difference lies within as many characters as reach behind the shorter string. -/
theorem firstDifference_take {n : Nat} (reaches : min a.length b.length < n) :
    firstDifference (a.take n) (b.take n) = firstDifference a b := by
  induction n generalizing a b with
  | zero => omega
  | succ n ih =>
    cases a with
    | nil => cases b <;> rfl
    | cons x a =>
      cases b with
      | nil => rfl
      | cons y b =>
        rw [List.length_cons, List.length_cons] at reaches
        rw [List.take_succ_cons, List.take_succ_cons, firstDifference, firstDifference,
          ih (by omega)]

/-- What a comparison makes of the first difference. -/
def compared (outcome : UInt8 → UInt8 → Int) : Option (UInt8 × UInt8) → Int
  | none => 0
  | some (x, y) => outcome x y

/-! ## One turn of the loops -/

/-- At an index up to which both strings go, either the bytes differ, and the first difference is
there, or both are the NUL, or the difference is the one behind the index. -/
theorem firstDifference_turn (s1 s2 : CString) {i : Nat} (n : Nat) (inside1 : i ≤ s1.bytes.length)
    (inside2 : i ≤ s2.bytes.length) :
    ∃ x y, s1.get i = .ok x ∧ s2.get i = .ok y ∧
      (x ≠ y ∧ firstDifference ((s1.rest i).take (n + 1)) ((s2.rest i).take (n + 1)) = some (x, y) ∨
        x = 0 ∧ y = 0 ∧ i = s1.bytes.length ∧
          firstDifference ((s1.rest i).take (n + 1)) ((s2.rest i).take (n + 1)) = none ∨
        x ≠ 0 ∧ x = y ∧ i < s1.bytes.length ∧ i < s2.bytes.length ∧
          firstDifference ((s1.rest i).take (n + 1)) ((s2.rest i).take (n + 1)) =
            firstDifference ((s1.rest (i + 1)).take n) ((s2.rest (i + 1)).take n)) := by
  have notNul (s : CString) {c : UInt8} {tail : List UInt8} (rest : s.rest i = c :: tail) : c ≠ 0 :=
    fun zero => s.noNul (List.mem_of_mem_drop (i := i) (by
      rw [CString.rest] at rest
      rw [rest, zero]
      exact List.mem_cons_self))
  cases rest1 : s1.rest i with
  | nil =>
    cases rest2 : s2.rest i with
    | nil =>
      have last : i = s1.bytes.length := by
        have length := List.drop_eq_nil_iff.mp rest1
        omega
      exact ⟨0, 0, s1.get_of_rest_nil inside1 rest1, s2.get_of_rest_nil inside2 rest2,
        .inr (.inl ⟨rfl, rfl, last, rfl⟩)⟩
    | cons y tail2 =>
      exact ⟨0, y, s1.get_of_rest_nil inside1 rest1, (s2.get_of_rest rest2).1,
        .inl ⟨(notNul s2 rest2).symm, rfl⟩⟩
  | cons x tail1 =>
    obtain ⟨read1, next1, below1⟩ := s1.get_of_rest rest1
    cases rest2 : s2.rest i with
    | nil =>
      exact ⟨x, 0, read1, s2.get_of_rest_nil inside2 rest2, .inl ⟨notNul s1 rest1, rfl⟩⟩
    | cons y tail2 =>
      obtain ⟨read2, next2, below2⟩ := s2.get_of_rest rest2
      refine ⟨x, y, read1, read2, ?_⟩
      rw [List.take_succ_cons, List.take_succ_cons, firstDifference, next1, next2]
      by_cases same : x = y
      · exact .inr (.inr ⟨notNul s1 rest1, same, below1, below2, if_pos same⟩)
      · exact .inl ⟨same, if_neg same⟩

/-! ## Values of the comparisons -/

/-- The result of `strncmp` at a difference. -/
def charDifference (x y : UInt8) : Int := intOfChar x - intOfChar y

/-- The result of `memcmp` at a difference. -/
def byteOrder (x y : UInt8) : Int := if x < y then -1 else 1

/-- `strncmp` subtracts the characters at the first difference. -/
theorem strncmpGo_eq (s1 s2 : CString) {n i : Nat} (inside1 : i ≤ s1.bytes.length)
    (inside2 : i ≤ s2.bytes.length) :
    strncmpGo s1 s2 i n =
      .ok (compared charDifference (firstDifference ((s1.rest i).take n) ((s2.rest i).take n))) := by
  induction n generalizing i with
  | zero => rfl
  | succ n ih =>
    obtain ⟨x, y, read1, read2, ⟨differ, found⟩ | ⟨rfl, rfl, -, found⟩ |
      ⟨nonzero, same, below1, below2, found⟩⟩ := firstDifference_turn s1 s2 n inside1 inside2
    all_goals rw [strncmpGo, read1, ok_bind, read2, ok_bind, found]
    · rw [if_neg fun stays => differ stays.2.2]
      rfl
    · rfl
    · rw [if_pos ⟨nonzero, same ▸ nonzero, same⟩, ih below1 below2]

/-- Once it reaches behind the shorter string, `strncmp` does what `strcmp` does. -/
theorem strcmpGo_eq_strncmpGo (s1 s2 : CString) {fuel n i : Nat} (inside1 : i ≤ s1.bytes.length)
    (inside2 : i ≤ s2.bytes.length) (enough : s1.bytes.length < i + fuel)
    (reaches : min s1.bytes.length s2.bytes.length < i + n) :
    strcmpGo s1 s2 i fuel = strncmpGo s1 s2 i n := by
  induction fuel generalizing i n with
  | zero => omega
  | succ fuel ih =>
    obtain ⟨n, rfl⟩ : ∃ k, n = k + 1 := Nat.exists_eq_succ_of_ne_zero (by omega)
    obtain ⟨x, y, read1, read2, turn⟩ := firstDifference_turn s1 s2 n inside1 inside2
    rw [strcmpGo, strncmpGo, read1, ok_bind, ok_bind, read2, ok_bind, ok_bind]
    by_cases stays : x ≠ 0 ∧ y ≠ 0 ∧ x = y
    · obtain ⟨differ, -⟩ | ⟨zero, -⟩ | ⟨-, -, below1, below2, -⟩ := turn
      · exact absurd stays.2.2 differ
      · exact absurd zero stays.1
      · rw [if_pos stays, if_pos stays, ih (n := n) below1 below2 (by omega) (by omega)]
    · rw [if_neg stays, if_neg stays]

/-- `memcmp` orders the bytes at the first difference, up to the NUL of the shorter string. -/
theorem memcmpGo_eq (s1 s2 : CString) {left i : Nat}
    (inside : i + left ≤ min s1.bytes.length s2.bytes.length + 1) :
    memcmpGo s1.get s2.get i left =
      .ok (compared byteOrder
        (firstDifference ((s1.rest i).take left) ((s2.rest i).take left))) := by
  induction left generalizing i with
  | zero => rfl
  | succ left ih =>
    obtain ⟨x, y, read1, read2, ⟨differ, found⟩ | ⟨rfl, rfl, last, found⟩ |
      ⟨nonzero, same, below1, below2, found⟩⟩ :=
        firstDifference_turn s1 s2 left (i := i) (by omega) (by omega)
    all_goals rw [memcmpGo, read1, ok_bind, read2, ok_bind, found]
    · rw [if_pos differ]
      rfl
    · obtain rfl : left = 0 := by omega
      rfl
    · rw [if_neg (not_not_intro same), ih (by omega)]

/-- The value of `strcmp`. -/
theorem strcmp_eq (s1 s2 : CString) :
    strcmp s1 s2 = .ok (compared charDifference (firstDifference s1.bytes s2.bytes)) := by
  rw [strcmp, strcmpGo_eq_strncmpGo s1 s2 (n := s1.bytes.length + 1) (Nat.zero_le _) (Nat.zero_le _)
    (by omega) (by omega), strncmpGo_eq s1 s2 (Nat.zero_le _) (Nat.zero_le _),
    show s1.rest 0 = s1.bytes from rfl, show s2.rest 0 = s2.bytes from rfl,
    firstDifference_take (by omega)]

/-- The value of `strncmp`. -/
theorem strncmp_eq (s1 s2 : CString) (n : UInt64) :
    strncmp s1 s2 n = .ok (compared charDifference
      (firstDifference (s1.bytes.take n.toNat) (s2.bytes.take n.toNat))) :=
  strncmpGo_eq s1 s2 (Nat.zero_le _) (Nat.zero_le _)

/-- The value of `memcmp` over the shorter string and its NUL. -/
theorem memcmp_eq (s1 s2 : CString) {n : UInt64}
    (shorter : n.toNat = min s1.bytes.length s2.bytes.length + 1) :
    memcmp s1.get s2.get n = .ok (compared byteOrder (firstDifference s1.bytes s2.bytes)) := by
  rw [memcmp, memcmpGo_eq s1 s2 (by omega), show s1.rest 0 = s1.bytes from rfl,
    show s2.rest 0 = s2.bytes from rfl, firstDifference_take (by omega)]

/-! ## Orders -/

/-- Values that tell one order have one sign. -/
theorem Orders.sign_eq {v w : Int} (first : Orders v a b) (second : Orders w a b) :
    v.sign = w.sign := by
  obtain negative | zero | positive := Int.lt_trichotomy v 0
  · rw [Int.sign_eq_neg_one_of_neg negative,
      Int.sign_eq_neg_one_of_neg (second.neg.mpr (first.neg.mp negative))]
  · rw [zero, second.zero.mpr (first.zero.mp zero)]
  · rw [Int.sign_eq_one_of_pos positive,
      Int.sign_eq_one_of_pos (second.pos.mpr (first.pos.mp positive))]

/-- Different bytes are in one of two orders. -/
theorem flip_of_ne (differ : x ≠ y) : y < x ↔ ¬ x < y := by
  have distinct : x.toNat ≠ y.toNat := fun same => differ (UInt8.toNat_inj.mp same)
  rw [UInt8.lt_iff_toNat_lt, UInt8.lt_iff_toNat_lt]
  omega

/-- A comparison tells the order if it tells that of the bytes at the first difference. -/
theorem orders_compared {outcome : UInt8 → UInt8 → Int} (noNulA : 0 ∉ a) (noNulB : 0 ∉ b)
    (right : ∀ x y, x ≠ y → firstDifference a b = some (x, y) →
      (outcome x y < 0 ↔ x < y) ∧ outcome x y ≠ 0) :
    Orders (compared outcome (firstDifference a b)) a b := by
  cases found : firstDifference a b with
  | none =>
    obtain rfl := firstDifference_none_iff.mp found
    exact ⟨by simp [compared], by simp [compared], by simp [compared]⟩
  | some difference =>
    obtain ⟨x, y⟩ := difference
    obtain ⟨differ, less, greater⟩ := lt_iff_of_firstDifference noNulA noNulB found
    obtain ⟨neg, nonzero⟩ := right x y differ found
    have distinct : a ≠ b := fun same => by
      rw [firstDifference_none_iff.mpr same] at found
      cases found
    have pos : 0 < outcome x y ↔ y < x := by
      rw [flip_of_ne differ, ← neg]
      omega
    exact ⟨neg.trans less.symm, iff_of_false nonzero distinct, pos.trans greater.symm⟩

/-- A character as a number: negative from 0x80 on. -/
theorem intOfChar_eq (c : UInt8) :
    intOfChar c = if c.toNat < 128 then (c.toNat : Int) else c.toNat - 256 := by
  have value := BitVec.toInt_eq_toNat_cond c.toBitVec
  rw [UInt8.toNat_toBitVec] at value
  rw [intOfChar, show c.toInt8.toInt = c.toBitVec.toInt from rfl, value]
  exact if_congr (by omega) rfl rfl

/-- Signed bytes are in the order of the unsigned ones unless the top bit of only one is set. -/
theorem charDifference_order (differ : x ≠ y) :
    (charDifference x y < 0 ↔ x < y) ↔ (x < 0x80 ↔ y < 0x80) := by
  have distinct : x.toNat ≠ y.toNat := fun same => differ (UInt8.toNat_inj.mp same)
  have boundX := x.toNat_lt
  have boundY := y.toNat_lt
  rw [charDifference, intOfChar_eq, intOfChar_eq, UInt8.lt_iff_toNat_lt, UInt8.lt_iff_toNat_lt,
    UInt8.lt_iff_toNat_lt, show (0x80 : UInt8).toNat = 128 from rfl]
  split <;> split <;> omega

/-- Characters that differ have a difference. -/
theorem charDifference_nonzero (differ : x ≠ y) : charDifference x y ≠ 0 := by
  have distinct : x.toNat ≠ y.toNat := fun same => differ (UInt8.toNat_inj.mp same)
  have boundX := x.toNat_lt
  have boundY := y.toNat_lt
  rw [charDifference, intOfChar_eq, intOfChar_eq]
  split <;> split <;> omega

/-- Subtraction of characters tells the order if the bytes at the difference are of one kind. -/
theorem orders_charDifference (noNulA : 0 ∉ a) (noNulB : 0 ∉ b)
    (alike : ∀ x y, firstDifference a b = some (x, y) → (x < 0x80 ↔ y < 0x80)) :
    Orders (compared charDifference (firstDifference a b)) a b :=
  orders_compared noNulA noNulB fun x y differ found =>
    ⟨(charDifference_order differ).mpr (alike x y found), charDifference_nonzero differ⟩

/-- `memcmp` tells the order. -/
theorem orders_byteOrder (noNulA : 0 ∉ a) (noNulB : 0 ∉ b) :
    Orders (compared byteOrder (firstDifference a b)) a b :=
  orders_compared noNulA noNulB fun x y _ _ => by
    by_cases less : x < y <;> simp [byteOrder, less]

/-! ## Agreement -/

/-- For all strings, the comparisons agree exactly where the bytes at the first difference, if
there is one, are both below 0x80 or both not. -/
theorem comparisons_agree (a b : CString) :
    Agree a b ↔
      ∀ x y, firstDifference a.bytes b.bytes = some (x, y) → (x < 0x80 ↔ y < 0x80) := by
  have noNulTake (s : CString) (n : Nat) : 0 ∉ s.bytes.take n :=
    fun inside => s.noNul (List.mem_of_mem_take inside)
  constructor
  · intro agree x y found
    obtain ⟨differ, less, -⟩ := lt_iff_of_firstDifference a.noNul b.noNul found
    obtain ⟨v, returned, orders⟩ := agree.order
    rw [strcmp_eq, found] at returned
    obtain rfl := Except.ok.inj returned
    exact (charDifference_order differ).mp (orders.neg.trans less)
  · intro alike
    have order := orders_charDifference a.noNul b.noNul alike
    refine ⟨fun n shorter => ?_, ⟨_, strcmp_eq a b, order⟩, fun n => ?_, fun n reaches => ?_⟩
    · exact ⟨_, _, strcmp_eq a b, memcmp_eq a b shorter,
        order.sign_eq (orders_byteOrder a.noNul b.noNul)⟩
    · exact ⟨_, strncmp_eq a b n, orders_charDifference (noNulTake a _) (noNulTake b _)
        fun x y found => alike x y (firstDifference_of_take found)⟩
    · refine ⟨_, _, strncmp_eq a b n, strcmp_eq a b, ?_⟩
      rw [firstDifference_take reaches]

/-- A string with a byte from 0x80 on. -/
def highString : CString where
  bytes := [0x80]
  noNul := by decide
  fits := by decide

/-- A string with a byte below 0x80. -/
def lowString : CString where
  bytes := [0x01]
  noNul := by decide
  fits := by decide

/-- `strcmp` puts a byte from 0x80 on in front of all others, `memcmp` behind them. -/
theorem highString_misordered :
    strcmp highString lowString = .ok (-129) ∧ strncmp highString lowString 1 = .ok (-129) ∧
      memcmp highString.get lowString.get 2 = .ok 1 ∧ lowString.bytes < highString.bytes ∧
      ¬ Agree highString lowString := by
  refine ⟨rfl, rfl, rfl, by decide, fun agree => ?_⟩
  obtain ⟨v, returned, orders⟩ := agree.order
  obtain rfl : -129 = v := Except.ok.inj returned
  exact absurd (orders.neg.mp (by decide)) (by decide)

end Symphony
