import Mathlib.Data.Nat.Digits.Lemmas
import Mathlib.Data.List.GetD
import Mathlib.Data.List.TakeWhile
import Mathlib.Data.Fin.Basic

/-!
# Change of base

A string of digits is a number together with the zeros it is written with
in front. Changing its base keeps both, so the change is undone by the
change back, and a text over an alphabet of digits is read back to the
string it was written from.
-/

namespace AllfeatExplorer

namespace Radix

/-- The number a string of digits is, the most significant first. -/
def value (b : ℕ) (ds : List ℕ) : ℕ := Nat.ofDigits b ds.reverse

/-- The digits of a number, the most significant first. -/
def numeral (b n : ℕ) : List ℕ := (Nat.digits b n).reverse

/-- The zeros a string of digits begins with. -/
def zeros (ds : List ℕ) : ℕ := (ds.takeWhile fun d => d = 0).length

/-- **The same number in another base**, with as many zeros in front. -/
def convert (b c : ℕ) (ds : List ℕ) : List ℕ :=
  List.replicate (zeros ds) 0 ++ numeral c (value b ds)

variable {b c d n k : ℕ} {as ds : List ℕ}

/-! ## Strings and numbers -/

theorem value_append : value b (as ++ ds) = value b as * b ^ ds.length + value b ds := by
  unfold value
  rw [List.reverse_append, Nat.ofDigits_append, List.length_reverse]
  ring

@[simp] theorem value_singleton : value b [d] = d := by
  simp [value]

@[simp] theorem value_replicate_zero : value b (List.replicate k 0) = 0 := by
  simp [value]

theorem value_zeros_append : value b (List.replicate k 0 ++ ds) = value b ds := by
  rw [value_append, value_replicate_zero, Nat.zero_mul, Nat.zero_add]

theorem value_lt (hb : 1 < b) (hds : ∀ d ∈ ds, d < b) : value b ds < b ^ ds.length := by
  unfold value
  rw [← List.length_reverse]
  exact Nat.ofDigits_lt_base_pow_length hb fun d hd => hds d (List.mem_reverse.mp hd)

/-- **The leading digits place the number.** -/
theorem value_append_bounds (as : List ℕ) (hb : 1 < b) (hds : ∀ d ∈ ds, d < b) :
    value b as * b ^ ds.length ≤ value b (as ++ ds) ∧
      value b (as ++ ds) < (value b as + 1) * b ^ ds.length := by
  have hlt := value_lt hb hds
  rw [value_append, Nat.add_mul, Nat.one_mul]
  omega

@[simp] theorem value_numeral : value b (numeral b n) = n := by
  unfold value numeral
  rw [List.reverse_reverse, Nat.ofDigits_digits]

theorem numeral_lt (hb : 1 < b) : ∀ d ∈ numeral b n, d < b := by
  intro d hd
  exact Nat.digits_lt_base hb (List.mem_reverse.mp hd)

/-- A numeral has no zero in front. -/
theorem numeral_head_ne : (numeral b n).head? ≠ some 0 := by
  unfold numeral
  rw [List.head?_reverse]
  intro h
  have hne : Nat.digits b n ≠ [] := by
    intro h0
    rw [h0] at h
    exact absurd h (by simp)
  rw [List.getLast?_eq_some_getLast hne, Option.some.injEq] at h
  exact Nat.getLast_digit_ne_zero b (Nat.digits_ne_nil_iff_ne_zero.mp hne) h

/-- **A string with no zero in front is the numeral of its number.** -/
theorem numeral_value (hb : 1 < b) (hds : ∀ d ∈ ds, d < b) (hhead : ds.head? ≠ some 0) :
    numeral b (value b ds) = ds := by
  unfold numeral value
  rw [Nat.digits_ofDigits b hb, List.reverse_reverse]
  · intro d hd
    exact hds d (List.mem_reverse.mp hd)
  · intro hne hlast
    refine hhead ?_
    rw [List.getLast_reverse] at hlast
    rw [List.head?_eq_some_head (by simpa using hne), hlast]

/-! ## Changing the base -/

theorem zeros_replicate_append (hhead : ds.head? ≠ some 0) :
    zeros (List.replicate k 0 ++ ds) = k := by
  unfold zeros
  have hds : ds.takeWhile (fun d => decide (d = 0)) = [] := by
    cases ds with
    | nil => rfl
    | cons d ds =>
      have hd : d ≠ 0 := fun h => hhead (by rw [h, List.head?_cons])
      rw [List.takeWhile_cons_of_neg (by simp [hd])]
  rw [List.takeWhile_append_of_pos (by simp), hds, List.append_nil, List.length_replicate]

/-- A string is its zeros and then a string with none in front. -/
theorem eq_zeros_append (ds : List ℕ) :
    ∃ rest, ds = List.replicate (zeros ds) 0 ++ rest ∧ rest.head? ≠ some 0 := by
  refine ⟨ds.dropWhile fun d => decide (d = 0), ?_, ?_⟩
  · have hall : ds.takeWhile (fun d => decide (d = 0)) = List.replicate (zeros ds) 0 := by
      refine List.eq_replicate_iff.mpr ⟨rfl, ?_⟩
      intro d hd
      exact of_decide_eq_true (List.mem_takeWhile_imp (p := fun d => decide (d = 0)) hd)
    rw [← hall, List.takeWhile_append_dropWhile]
  · intro h
    have hnot := List.head?_dropWhile_not (fun d : ℕ => decide (d = 0)) ds
    rw [h] at hnot
    exact absurd hnot (by simp)

@[simp] theorem zeros_convert : zeros (convert b c ds) = zeros ds :=
  zeros_replicate_append numeral_head_ne

@[simp] theorem value_convert : value c (convert b c ds) = value b ds := by
  unfold convert
  rw [value_zeros_append, value_numeral]

theorem convert_lt (hc : 1 < c) : ∀ d ∈ convert b c ds, d < c := by
  intro d hd
  rcases List.mem_append.mp hd with h | h
  · rw [(List.mem_replicate.mp h).2]
    omega
  · exact numeral_lt hc d h

/-- A string is its zeros and the numeral of its number. -/
theorem zeros_append_numeral (hb : 1 < b) (hds : ∀ d ∈ ds, d < b) :
    List.replicate (zeros ds) 0 ++ numeral b (value b ds) = ds := by
  obtain ⟨rest, heq, hhead⟩ := eq_zeros_append ds
  have hvalue : value b ds = value b rest := by
    rw [heq, value_zeros_append]
  rw [hvalue, numeral_value hb ?_ hhead, ← heq]
  intro d hd
  exact hds d (by rw [heq]; exact List.mem_append_right _ hd)

/-- **The change back undoes the change.** -/
theorem convert_convert (hb : 1 < b) (hds : ∀ d ∈ ds, d < b) :
    convert c b (convert b c ds) = ds := by
  rw [convert, zeros_convert, value_convert, zeros_append_numeral hb hds]

/-! ## Length and first digit -/

/-- **The length and the first digit of a numeral**, from where its number
lies among the multiples of a power of the base. -/
theorem numeral_eq_cons (hb : 1 < b) (hd : 0 < d) (hdb : d < b) (hlow : d * b ^ k ≤ n)
    (hhigh : n < (d + 1) * b ^ k) :
    ∃ rest, numeral b n = d :: rest ∧ rest.length = k := by
  have hpos : 0 < b ^ k := Nat.pow_pos (by omega)
  have hdiv : n / b ^ k = d := Nat.div_eq_of_lt_le hlow hhigh
  obtain ⟨rest, hlen, hlt, hrest⟩ :
      ∃ rest : List ℕ, rest.length = k ∧ (∀ e ∈ rest, e < b) ∧ value b rest = n % b ^ k := by
    have hmod : n % b ^ k < b ^ k := Nat.mod_lt _ hpos
    refine ⟨List.replicate (k - (numeral b (n % b ^ k)).length) 0 ++ numeral b (n % b ^ k), ?_,
      ?_, ?_⟩
    · have hle : (numeral b (n % b ^ k)).length ≤ k := by
        unfold numeral
        rw [List.length_reverse]
        exact (Nat.digits_length_le_iff hb _).mpr hmod
      rw [List.length_append, List.length_replicate]
      omega
    · intro e he
      rcases List.mem_append.mp he with h | h
      · rw [(List.mem_replicate.mp h).2]
        omega
      · exact numeral_lt hb e h
    · rw [value_zeros_append, value_numeral]
  have hn : n = value b ([d] ++ rest) := by
    rw [value_append, value_singleton, hlen, hrest, ← hdiv, Nat.mul_comm]
    exact (Nat.div_add_mod n (b ^ k)).symm
  refine ⟨rest, ?_, hlen⟩
  rw [hn]
  refine numeral_value hb ?_ ?_
  · intro e he
    rcases List.mem_cons.mp he with rfl | h
    · exact hdb
    · exact hlt e h
  · simp only [List.cons_append, List.nil_append, List.head?_cons, ne_eq, Option.some.injEq]
    omega

/-- The length of a numeral, from the powers of the base about its
number. -/
theorem length_numeral (hb : 1 < b) (hlow : b ^ k ≤ n) (hhigh : n < b ^ (k + 1)) :
    (numeral b n).length = k + 1 := by
  unfold numeral
  rw [List.length_reverse]
  have hle := (Nat.digits_length_le_iff hb n).mpr hhigh
  have hlt := (Nat.lt_digits_length_iff hb n).mpr hlow
  omega

/-! ## Texts over an alphabet -/

section Text

variable [NeZero b] {alphabet : List Char} {bs : List (Fin b)} {cs : List Char}

/-- **The text of a string of base-`b` digits**: the string in the base
the alphabet's length gives, a character for each digit. -/
def write (alphabet : List Char) (bs : List (Fin b)) : List Char :=
  (convert b alphabet.length (bs.map Fin.val)).map fun d => alphabet.getD d ' '

/-- **The string a text is written from**, unless a character is not of
the alphabet. -/
def read (b : ℕ) [NeZero b] (alphabet : List Char) (cs : List Char) : Option (List (Fin b)) :=
  (cs.mapM fun c => alphabet.idxOf? c).map fun ds =>
    (convert alphabet.length b ds).map (Fin.ofNat b)

omit [NeZero b] in
theorem mem_map_val_lt (bs : List (Fin b)) : ∀ d ∈ bs.map Fin.val, d < b := by
  intro d hd
  obtain ⟨x, -, rfl⟩ := List.mem_map.mp hd
  exact x.isLt

theorem map_ofNat_map_val : (bs.map Fin.val).map (Fin.ofNat b) = bs := by
  rw [List.map_map]
  exact (List.map_congr_left fun x _ => Fin.ofNat_val_eq_self x).trans (List.map_id bs)

theorem map_val_map_ofNat (hds : ∀ d ∈ ds, d < b) :
    (ds.map (Fin.ofNat b)).map Fin.val = ds := by
  rw [List.map_map]
  refine (List.map_congr_left fun d hd => ?_).trans (List.map_id ds)
  exact Nat.mod_eq_of_lt (hds d hd)

theorem idxOf?_getD (hnodup : alphabet.Nodup) (hd : d < alphabet.length) :
    alphabet.idxOf? (alphabet.getD d ' ') = some d := by
  rw [List.getD_eq_getElem alphabet ' ' hd, List.idxOf?_eq_some_iff]
  refine ⟨hd, rfl, ?_⟩
  intro j hj heq
  have hij := (List.Nodup.getElem_inj_iff hnodup).mp heq
  omega

theorem getD_of_idxOf? {c : Char} (h : alphabet.idxOf? c = some d) :
    d < alphabet.length ∧ alphabet.getD d ' ' = c := by
  obtain ⟨hd, heq, -⟩ := List.idxOf?_eq_some_iff.mp h
  exact ⟨hd, by rw [List.getD_eq_getElem alphabet ' ' hd, heq]⟩

theorem mapM_idxOf? (hnodup : alphabet.Nodup) (hds : ∀ d ∈ ds, d < alphabet.length) :
    (ds.map fun d => alphabet.getD d ' ').mapM (fun c => alphabet.idxOf? c) = some ds := by
  induction ds with
  | nil => rfl
  | cons d ds ih =>
    rw [List.map_cons, List.mapM_cons, idxOf?_getD hnodup (hds d List.mem_cons_self),
      ih fun e he => hds e (List.mem_cons_of_mem d he)]
    rfl

theorem of_mapM_idxOf? (h : cs.mapM (fun c => alphabet.idxOf? c) = some ds) :
    (∀ d ∈ ds, d < alphabet.length) ∧ (ds.map fun d => alphabet.getD d ' ') = cs := by
  induction cs generalizing ds with
  | nil =>
    cases h
    exact ⟨by simp, rfl⟩
  | cons c cs ih =>
    rw [List.mapM_cons] at h
    obtain ⟨d, hd, h⟩ := Option.bind_eq_some_iff.mp h
    obtain ⟨rest, hrest, h⟩ := Option.bind_eq_some_iff.mp h
    cases h
    obtain ⟨hlt, hget⟩ := getD_of_idxOf? hd
    obtain ⟨hall, hmap⟩ := ih hrest
    refine ⟨?_, by rw [List.map_cons, hget, hmap]⟩
    intro e he
    rcases List.mem_cons.mp he with rfl | he
    · exact hlt
    · exact hall e he

/-- **A string is read back from its text.** -/
theorem read_write (hb : 1 < b) (hlen : 1 < alphabet.length) (hnodup : alphabet.Nodup) :
    read b alphabet (write alphabet bs) = some bs := by
  unfold read write
  rw [mapM_idxOf? hnodup (convert_lt hlen), Option.map_some,
    convert_convert hb (mem_map_val_lt bs), map_ofNat_map_val]

/-- **A text that is read is the text of what it is read as.** -/
theorem write_of_read (hb : 1 < b) (hlen : 1 < alphabet.length)
    (h : read b alphabet cs = some bs) : write alphabet bs = cs := by
  obtain ⟨ds, hds, rfl⟩ := Option.map_eq_some_iff.mp h
  obtain ⟨hlt, hmap⟩ := of_mapM_idxOf? hds
  unfold write
  rw [map_val_map_ofNat (convert_lt hb), convert_convert hlen hlt, hmap]

/-! The text of a string with no zero in front has the length, and the
first character, of the numeral of its number. -/

omit [NeZero b] in
theorem write_eq_cons (d k : ℕ) (hc : 1 < alphabet.length) (hhead : (bs.map Fin.val).head? ≠ some 0)
    (hd : 0 < d) (hdc : d < alphabet.length)
    (hlow : d * alphabet.length ^ k ≤ value b (bs.map Fin.val))
    (hhigh : value b (bs.map Fin.val) < (d + 1) * alphabet.length ^ k) :
    ∃ rest, write alphabet bs = alphabet.getD d ' ' :: rest := by
  obtain ⟨rest, heq, -⟩ := numeral_eq_cons hc hd hdc hlow hhigh
  have hzeros : zeros (bs.map Fin.val) = 0 := zeros_replicate_append (k := 0) hhead
  refine ⟨rest.map fun d => alphabet.getD d ' ', ?_⟩
  unfold write convert
  rw [hzeros, heq, List.replicate_zero, List.nil_append, List.map_cons]

omit [NeZero b] in
theorem length_write (hc : 1 < alphabet.length) (hhead : (bs.map Fin.val).head? ≠ some 0)
    (hlow : alphabet.length ^ k ≤ value b (bs.map Fin.val))
    (hhigh : value b (bs.map Fin.val) < alphabet.length ^ (k + 1)) :
    (write alphabet bs).length = k + 1 := by
  have hzeros : zeros (bs.map Fin.val) = 0 := zeros_replicate_append (k := 0) hhead
  unfold write convert
  rw [hzeros, List.replicate_zero, List.nil_append, List.length_map, length_numeral hc hlow hhigh]

end Text

end Radix

end AllfeatExplorer
