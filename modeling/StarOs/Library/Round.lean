import Mathlib.Data.List.Range
import Mathlib.Data.List.Perm.Subperm
import Mathlib.Tactic.Common

/-! Going round `n` slots. A scan that starts after slot `p` and wraps finds the first slot
that is wanted, so whichever other slot is wanted too gets strictly closer. Slots on the
way to a fixed one are ordered, and the order does not depend on how many there are. -/

namespace StarOs.Library.Round

variable {n p t c d e : ℕ} {wanted : ℕ → Bool}

/-- The slots after `p`, once round. -/
def scan (n p : ℕ) (wanted : ℕ → Bool) : Option ℕ :=
  ((List.range' 1 n).map fun off => (p + off) % n).find? wanted

/-- How far round from slot `c` to slot `t`. -/
def distance (n c t : ℕ) : ℕ := (t + n - c) % n

/-- On the way round to `t`, slot `c` comes before slot `d`. -/
def Ahead (t c d : ℕ) : Prop := (t < c ∧ (c < d ∨ d < t)) ∨ (c < d ∧ d < t)

/-- The offsets `1 .. n` from anywhere reach every index. -/
theorem mem_round (ht : t < n) : ∃ off ∈ List.range' 1 n, (p + off) % n = t := by
  have hm : p % n < n := Nat.mod_lt _ (Nat.zero_lt_of_lt ht)
  by_cases h : p % n < t
  · refine ⟨t - p % n, List.mem_range'_1.mpr (by omega), ?_⟩
    rw [← Nat.mod_add_mod, Nat.add_sub_cancel' (Nat.le_of_lt h), Nat.mod_eq_of_lt ht]
  · refine ⟨t + n - p % n, List.mem_range'_1.mpr (by omega), ?_⟩
    rw [← Nat.mod_add_mod, Nat.add_sub_cancel' (by omega), Nat.add_mod_right, Nat.mod_eq_of_lt ht]

theorem scan_none (h : scan n p wanted = none) (ht : t < n) : wanted t = false := by
  obtain ⟨off, hoff, heq⟩ := mem_round (p := p) ht
  exact Bool.eq_false_iff.mpr (List.find?_eq_none.mp h t (List.mem_map.mpr ⟨off, hoff, heq⟩))

theorem distance_of_le (hct : c ≤ t) (ht : t < n) : distance n c t = t - c := by
  rw [distance, show t + n - c = t - c + n by omega, Nat.add_mod_right, Nat.mod_eq_of_lt (by omega)]

theorem distance_of_lt (hc : c < n) (htc : t < c) : distance n c t = t + n - c := by
  rw [distance, Nat.mod_eq_of_lt (by omega)]

theorem add_mod_of_lt (hp : p < n) {off : ℕ} (hoff : off ≤ n) :
    (p + off) % n = if p + off < n then p + off else p + off - n := by
  split
  · rename_i h
    exact Nat.mod_eq_of_lt h
  · rename_i h
    rw [Nat.mod_eq_sub_mod (by omega), Nat.mod_eq_of_lt (by omega)]

/-- The scan passes over no slot that is wanted. -/
theorem scan_closer (hp : p < n) (ht : t < n) (hne : p ≠ t) (hwanted : wanted t = true)
    (h : scan n p wanted = some d) : d < n ∧ distance n d t < distance n p t := by
  rw [scan, List.find?_map, Option.map_eq_some_iff] at h
  obtain ⟨off, hfind, rfl⟩ := h
  obtain ⟨-, hoff, hfirst⟩ := List.find?_range'_eq_some.mp hfind
  rw [List.mem_range'_1] at hoff
  -- the offset of `t` is its distance
  have hreach : (p + distance n p t) % n = t ∧ 1 ≤ distance n p t ∧ distance n p t < n := by
    rcases Nat.lt_or_gt_of_ne hne with hlt | hgt
    · rw [distance_of_le hlt.le ht, add_mod_of_lt hp (by omega), if_pos (by omega)]
      omega
    · rw [distance_of_lt hp hgt, add_mod_of_lt hp (by omega), if_neg (by omega)]
      omega
  have hle : off ≤ distance n p t := by
    by_contra hlt
    have hskip := hfirst _ hreach.2.1 (by omega)
    simp [hreach.1, hwanted] at hskip
  have hd : (p + off) % n < n := Nat.mod_lt _ (by omega)
  refine ⟨hd, ?_⟩
  rw [add_mod_of_lt hp (by omega)] at hd ⊢
  rcases Nat.lt_or_gt_of_ne hne with hlt | hgt
  · rw [distance_of_le hlt.le ht] at hle ⊢
    rw [if_pos (by omega), distance_of_le (by omega) ht]
    omega
  · rw [distance_of_lt hp hgt] at hle ⊢
    split
    · rw [distance_of_lt (by omega) (by omega)]
      omega
    · rw [distance_of_le (by omega) ht]
      omega

theorem ahead_of_closer (hc : c < n) (hd : d < n) (ht : t < n) (hdt : d ≠ t)
    (h : distance n d t < distance n c t) : Ahead t c d := by
  have hdist : ∀ s < n, distance n s t = if s ≤ t then t - s else t + n - s := by
    intro s hs
    split
    · exact distance_of_le (by omega) ht
    · exact distance_of_lt hs (by omega)
  rw [hdist c hc, hdist d hd] at h
  simp only [Ahead]
  split at h <;> split at h <;> omega

theorem Ahead.trans (h : Ahead t c d) (h' : Ahead t d e) : Ahead t c e := by
  simp only [Ahead] at *
  omega

theorem Ahead.ne (h : Ahead t c d) : d ≠ c := by
  simp only [Ahead] at h
  omega

/-- Slots passed one after the other on the way to `t`, the last first, are all different. -/
theorem nodup_of_ahead {slots : List ℕ} (h : slots.Pairwise fun d c => Ahead t c d) : slots.Nodup :=
  h.imp Ahead.ne

/-- There are fewer slots to pass than slots. -/
theorem length_lt_of_nodup {slots : List ℕ} (ht : t < n) (hnodup : (t :: slots).Nodup)
    (hlt : ∀ c ∈ slots, c < n) : slots.length < n := by
  have hsub : t :: slots ⊆ List.range n := by
    intro c hmem
    obtain rfl | hrest := List.mem_cons.mp hmem
    · exact List.mem_range.mpr ht
    · exact List.mem_range.mpr (hlt c hrest)
  have hle := (hnodup.subperm hsub).length_le
  rwa [List.length_range] at hle

end StarOs.Library.Round
