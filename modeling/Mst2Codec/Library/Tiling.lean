import Mathlib

/-!
# Tiles of one length

A range of `size` places is covered by tiles of length `c`, the last one cut off at the end.  There
are `size ⌈/⌉ c` of them (`lt_ceilDiv_iff`), their lengths add up to `size` (`sum_tileLen`), and the
places of tile `i` are the places whose quotient by `c` is `i` (`mem_tile`).  So the tiles that meet
an interval are those between the tiles of its first and its last place (`tile_inter_nonempty`).

A list is cut into blocks in the same way: block `i` has the elements in the places of tile `i`
(`getElem?_block`), and a part of the list is a part of the blocks that it meets
(`take_drop_flatMap_block`).
-/

set_option autoImplicit false

namespace Tiling

/-- The length of tile `i`. -/
def tileLen (c size i : ℕ) : ℕ := min c (size - i * c)

variable {c size i : ℕ}

theorem lt_ceilDiv_iff (hc : 0 < c) : i < size ⌈/⌉ c ↔ i * c < size := by
  rw [← not_le, ceilDiv_le_iff_le_mul hc, not_le, mul_comm]

theorem ceilDiv_le_self (hc : 0 < c) : size ⌈/⌉ c ≤ size :=
  (ceilDiv_le_iff_le_mul hc).mpr (Nat.le_mul_of_pos_left size hc)

theorem tileLen_le : tileLen c size i ≤ c := min_le_left _ _

/-- No tile is empty. -/
theorem tileLen_pos (hc : 0 < c) (hi : i < size ⌈/⌉ c) : 0 < tileLen c size i := by
  rw [lt_ceilDiv_iff hc] at hi
  exact lt_min hc (Nat.sub_pos_of_lt hi)

/-- All tiles but the last are full. -/
theorem tileLen_of_succ_lt (hc : 0 < c) (hi : i + 1 < size ⌈/⌉ c) : tileLen c size i = c := by
  rw [lt_ceilDiv_iff hc, Nat.succ_mul] at hi
  exact min_eq_left (by omega)

/-- The last tile is what is left. -/
theorem tileLen_of_succ_eq (hc : 0 < c) (hi : i + 1 = size ⌈/⌉ c) :
    tileLen c size i = size - i * c := by
  have hlast := (ceilDiv_le_iff_le_mul hc).mp hi.ge
  rw [mul_comm, Nat.succ_mul] at hlast
  exact min_eq_right (by omega)

/-- The first `n` tiles. -/
theorem sum_range_tileLen (c size n : ℕ) :
    ((List.range n).map (tileLen c size)).sum = min (n * c) size := by
  induction n with
  | zero => simp
  | succ n ih =>
    rw [List.range_succ, List.map_append, List.sum_append, ih, List.map_singleton,
      List.sum_singleton, tileLen, Nat.succ_mul]
    omega

/-- **The tiles have the length of the range.** -/
theorem sum_tileLen (hc : 0 < c) (size : ℕ) :
    ((List.range (size ⌈/⌉ c)).map (tileLen c size)).sum = size := by
  have hle := (ceilDiv_le_iff_le_mul hc).mp (le_refl (size ⌈/⌉ c))
  rw [sum_range_tileLen, mul_comm]
  exact min_eq_right hle

/-- The places of tile `i`. -/
def tile (c size i : ℕ) : Set ℕ := Set.Ico (i * c) (i * c + tileLen c size i)

theorem mem_tile (hc : 0 < c) {x : ℕ} : x ∈ tile c size i ↔ x < size ∧ x / c = i := by
  rw [tile, Set.mem_Ico, tileLen, Nat.div_eq_iff hc]
  omega

/-- **The tiles that meet an interval.** -/
theorem tile_inter_nonempty (hc : 0 < c) {lo hi : ℕ} (hlt : lo < hi) (hle : hi ≤ size) :
    (tile c size i ∩ Set.Ico lo hi).Nonempty ↔ lo / c ≤ i ∧ i ≤ (hi - 1) / c := by
  constructor
  · rintro ⟨x, hx, hlo, hhi⟩
    obtain ⟨-, rfl⟩ := (mem_tile hc).mp hx
    exact ⟨Nat.div_le_div_right hlo, Nat.div_le_div_right (by omega)⟩
  · rintro ⟨hlo, hhi⟩
    rw [Nat.le_div_iff_mul_le hc] at hhi
    -- the first place of both
    refine ⟨max lo (i * c), (mem_tile hc).mpr ⟨by omega, ?_⟩, le_max_left _ _, by omega⟩
    rcases le_total lo (i * c) with h | h
    · rw [max_eq_right h, Nat.mul_div_cancel _ hc]
    · rw [max_eq_left h]
      exact le_antisymm hlo ((Nat.le_div_iff_mul_le hc).mpr h)

/-! ## Blocks of a list -/

section blocks

variable {α : Type}

/-- Block `i`. -/
def block (c : ℕ) (l : List α) (i : ℕ) : List α := (l.drop (i * c)).take c

@[simp] theorem length_block (c : ℕ) (l : List α) (i : ℕ) :
    (block c l i).length = tileLen c l.length i := by
  rw [block, List.length_take, List.length_drop, tileLen]

theorem getElem?_block_div (hc : 0 < c) (l : List α) (x : ℕ) :
    (block c l (x / c))[x % c]? = l[x]? := by
  rw [block, List.getElem?_take_of_lt (Nat.mod_lt x hc), List.getElem?_drop, Nat.div_add_mod']

/-- Blocks one behind the other. -/
theorem flatMap_block (c : ℕ) (l : List α) (i n : ℕ) :
    (List.range' i n).flatMap (block c l) = (l.drop (i * c)).take (n * c) := by
  induction n generalizing i with
  | zero => simp
  | succ n ih =>
    rw [List.range'_succ, List.flatMap_cons, ih, block, Nat.succ_mul, Nat.succ_mul,
      Nat.add_comm _ c, Nat.add_comm _ c, List.take_add, List.drop_drop, Nat.add_comm c]

/-- **A part of a list from the blocks that it meets.** -/
theorem take_drop_flatMap_block (hc : 0 < c) (l : List α) {lo n : ℕ} (hn : 0 < n)
    (hlo : lo < l.length) :
    (((List.range' (lo / c) ((min l.length (lo + n) - 1) / c + 1 - lo / c)).flatMap
      (block c l)).drop (lo - lo / c * c)).take n = (l.drop lo).take n := by
  have hle := Nat.div_mul_le_self lo c
  have hmono : lo / c ≤ (min l.length (lo + n) - 1) / c := Nat.div_le_div_right (by omega)
  -- the blocks end behind the part
  have hend := Nat.lt_div_mul_add (a := min l.length (lo + n) - 1) hc
  rw [flatMap_block, List.drop_take, List.drop_drop, Nat.add_sub_cancel' hle, List.take_take,
    Nat.sub_mul, Nat.succ_mul]
  rcases le_total l.length (lo + n) with h | h
  · rw [List.take_of_length_le (by rw [List.length_drop]; omega),
      List.take_of_length_le (by rw [List.length_drop]; omega)]
  · congr 1
    omega

end blocks

end Tiling
