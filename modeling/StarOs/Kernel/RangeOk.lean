import StarOs.Kernel.AddressSpace
import StarOs.Paging.Refinement

/-! `range_ok`: one translation a page, from the page of the first byte to the page of the last.
The walk looks at the page of an address only, so one translation answers for all of it. -/

namespace StarOs.Kernel

open Library Library.Loop Paging

section

variable {σ : Type} (P : FramePool σ)

namespace AddressSpace

/-- Whether the walk at an address grants what is asked. -/
def grants (a : AddressSpace) (write : Bool) (virt : UInt64) (m : Mem σ) : Bool :=
  match a.mapper.translate (kernelFrames P) virt m with
  | some t => t.rights.user && (!write || t.rights.write)
  | none => false

/-- The loop of `range_ok`, for at most so many turns. -/
def rangeLoop (a : AddressSpace) (last : UInt64) (write : Bool) (m : Mem σ) :
    ℕ → UInt64 → Checked Bool
  | 0, _ => .error .unfinished
  | turns + 1, page =>
    if !a.grants P write page m then .ok false
    else if page == last then .ok true
    else do
      let page ← addWord page pageSize
      rangeLoop a last write m turns page

def rangeOk (a : AddressSpace) (ptr len : UInt64) (write : Bool) (m : Mem σ) (turns : ℕ) :
    Checked Bool :=
  if len == 0 then .ok true
  else if ptr ≥ userLimit then .ok false
  else do
    let room ← subWord userLimit ptr
    if len > room then .ok false
    else
      let first := ptr &&& ~~~(pageSize - 1)
      let stop ← addWord ptr len
      let stop ← subWord stop 1
      a.rangeLoop P (stop &&& ~~~(pageSize - 1)) write m turns first

end AddressSpace

/-- The byte at an address is a user's, to read and, if asked, to write. -/
def UserByte (a : AddressSpace) (write : Bool) (m : Mem σ) (x : ℕ) : Prop :=
  x < userLimit.toNat ∧ ∃ t, a.mapper.translate (kernelFrames P) (UInt64.ofNat x) m = some t ∧
    t.rights.user ∧ (write → t.rights.write)

end

section

variable {σ : Type} {P : FramePool σ} {a : AddressSpace} {m : Mem σ} {write : Bool}
  {ptr len page last : UInt64}

/-- Two addresses of one page take the same walk. -/
theorem translateFrom_samePage {F : FrameSource σ} {s : σ} {v w : UInt64}
    (h : v.toNat / 4096 = w.toNat / 4096) {n : ℕ} (hn : n ≤ 4) {t : UInt64} {eff : Rights} :
    (Mapper.translateFrom F v s n t eff).map Translation.rights =
      (Mapper.translateFrom F w s n t eff).map Translation.rights := by
  induction n generalizing t eff with
  | zero => rfl
  | succ n ih =>
    have hindex : index v n = index w n := by
      rw [index_eq (by omega), index_eq (by omega), Nat.pow_add, ← Nat.div_div_eq_div_mul,
        ← Nat.div_div_eq_div_mul, show 2 ^ 12 = 4096 by rfl, h]
    simp only [Mapper.translateFrom, hindex]
    split
    · rfl
    · split
      · rfl
      · exact ih (by omega)

theorem grants_samePage {v w : UInt64} (h : v.toNat / 4096 = w.toNat / 4096) :
    a.grants P write v m = a.grants P write w m := by
  have hrights : (a.mapper.translate (kernelFrames P) v m).map Translation.rights =
      (a.mapper.translate (kernelFrames P) w m).map Translation.rights :=
    translateFrom_samePage h le_rfl
  unfold AddressSpace.grants
  cases hv : a.mapper.translate (kernelFrames P) v m with
  | none =>
    rw [hv, Option.map_none, eq_comm, Option.map_eq_none_iff] at hrights
    rw [hrights]
  | some t =>
    rw [hv, Option.map_some, eq_comm] at hrights
    obtain ⟨t', hw, heq⟩ := Option.map_eq_some_iff.mp hrights
    rw [hw]
    simp only [heq]

theorem userByte_iff {x : ℕ} (hx : x < userLimit.toNat) :
    UserByte P a write m x ↔ a.grants P write (UInt64.ofNat x) m := by
  rw [UserByte, AddressSpace.grants]
  cases h : a.mapper.translate (kernelFrames P) (UInt64.ofNat x) m with
  | none => simp
  | some t => cases write <;> simp [hx]

/-- The loop ends, without overflow, at the first page that grants less or at the last. -/
theorem rangeLoop_spec (P : FramePool σ) (a : AddressSpace) (m : Mem σ) (write : Bool)
    (hpage : page.toNat % 4096 = 0) (hlast : last.toNat % 4096 = 0)
    (hle : page.toNat ≤ last.toNat) {turns : ℕ}
    (hturns : (last.toNat - page.toNat) / 4096 < turns) :
    ∃ b, a.rangeLoop P last write m turns page = .ok b ∧
      (b ↔ ∀ p : UInt64, p.toNat % 4096 = 0 → page.toNat ≤ p.toNat → p.toNat ≤ last.toNat →
        a.grants P write p m) := by
  induction turns generalizing page with
  | zero => omega
  | succ turns ih =>
    rw [AddressSpace.rangeLoop]
    cases hgrants : a.grants P write page m with
    | false =>
      refine ⟨false, rfl, fun h => absurd h Bool.false_ne_true, fun hall => ?_⟩
      rw [← hgrants]
      exact hall page hpage le_rfl hle
    | true =>
      by_cases heq : page = last
      · subst heq
        refine ⟨true, by simp, fun _ p _ hlo hhi => ?_, fun _ => rfl⟩
        rwa [UInt64.toNat_inj.mp (le_antisymm hhi hlo)]
      · have hne : page.toNat ≠ last.toNat := fun h => heq (UInt64.toNat_inj.mp h)
        have hsize : pageSize.toNat = 4096 := rfl
        have hbound := last.toNat_lt
        obtain ⟨hadd, hnext⟩ := addWord_eq (a := page) (b := pageSize) (by omega)
        obtain ⟨b, hloop, hiff⟩ := @ih (page + pageSize) (by omega) (by omega) (by omega)
        refine ⟨b, ?_, hiff.trans ⟨fun hall p hp hlo hhi => ?_, fun hall p hp hlo hhi => ?_⟩⟩
        · rw [if_neg (by decide), if_neg (by simpa using heq), hadd, checked_bind]
          exact hloop
        · by_cases hfirst : p.toNat = page.toNat
          · exact UInt64.toNat_inj.mp hfirst ▸ hgrants
          · exact hall p hp (by omega) hhi
        · exact hall p hp (by omega) hhi

/-- `range_ok` ends, overflows nowhere, and says whether every byte of the range is a user's. -/
theorem rangeOk_exact (a : AddressSpace) (ptr len : UInt64) (write : Bool) (m : Mem σ) {turns : ℕ}
    (hturns : len.toNat / 4096 + 2 ≤ turns) :
    ∃ b, a.rangeOk P ptr len write m turns = .ok b ∧
      (b ↔ ∀ x, ptr.toNat ≤ x → x < ptr.toNat + len.toNat → UserByte P a write m x) := by
  have hlimit : userLimit.toNat = 2 ^ 47 := by decide
  by_cases hzero : len = 0
  · subst hzero
    refine ⟨true, rfl, fun _ x hlo hhi => ?_, fun _ => rfl⟩
    rw [UInt64.toNat_zero] at hhi
    omega
  have hlen : 0 < len.toNat := Nat.pos_of_ne_zero fun h => hzero (UInt64.toNat_inj.mp h)
  rw [AddressSpace.rangeOk, if_neg (by simpa using hzero)]
  by_cases hptr : ptr ≥ userLimit
  · rw [if_pos hptr]
    rw [ge_iff_le, UInt64.le_iff_toNat_le] at hptr
    refine ⟨false, rfl, fun h => absurd h Bool.false_ne_true, fun hall => ?_⟩
    have hfirst := (hall ptr.toNat le_rfl (by omega)).1
    omega
  · rw [if_neg hptr]
    rw [ge_iff_le, UInt64.le_iff_toNat_le, hlimit] at hptr
    obtain ⟨hsub, hroom⟩ := subWord_eq (a := userLimit) (b := ptr) (by omega)
    rw [hsub, checked_bind]
    by_cases hlong : len > userLimit - ptr
    · rw [if_pos hlong]
      rw [gt_iff_lt, UInt64.lt_iff_toNat_lt, hroom] at hlong
      refine ⟨false, rfl, fun h => absurd h Bool.false_ne_true, fun hall => ?_⟩
      have hbeyond := (hall userLimit.toNat (by omega) (by omega)).1
      omega
    · rw [if_neg hlong]
      rw [gt_iff_lt, UInt64.lt_iff_toNat_lt, hroom] at hlong
      obtain ⟨hadd, hsum⟩ := addWord_eq (a := ptr) (b := len) (by omega)
      obtain ⟨hdec, hstop⟩ := subWord_eq (a := ptr + len) (b := 1) (by
        rw [hsum, UInt64.toNat_one]
        omega)
      simp only [hadd, hdec, checked_bind]
      rw [UInt64.toNat_one, hsum] at hstop
      have hfirst := (page_parts ptr 0).2
      have hlast := (page_parts (ptr + len - 1) 0).2
      rw [show (levelSize 0).toNat = 4096 from rfl, show levelSize 0 = pageSize from rfl]
        at hfirst hlast
      rw [hstop] at hlast
      have halign : (ptr &&& ~~~(pageSize - 1)).toNat % 4096 = 0 := by omega
      have halign' : (ptr + len - 1 &&& ~~~(pageSize - 1)).toNat % 4096 = 0 := by omega
      obtain ⟨b, hloop, hiff⟩ := rangeLoop_spec P a m write halign halign' (by omega)
        (show _ < turns by omega)
      refine ⟨b, hloop, hiff.trans ⟨fun hall x hlo hhi => ?_, fun hall p hp hlo hhi => ?_⟩⟩
      · rw [userByte_iff (by omega)]
        have hx : (UInt64.ofNat x).toNat = x :=
          UInt64.toNat_ofNat_of_lt' (by rw [UInt64.size]; omega)
        have hpage : (UInt64.ofNat (x / 4096 * 4096)).toNat = x / 4096 * 4096 :=
          UInt64.toNat_ofNat_of_lt' (by rw [UInt64.size]; omega)
        rw [grants_samePage (w := UInt64.ofNat (x / 4096 * 4096)) (by omega)]
        exact hall _ (by omega) (by omega) (by omega)
      · -- the page has a byte of the range
        have hbyte := hall (max p.toNat ptr.toNat) (by omega) (by omega)
        rw [userByte_iff (by omega)] at hbyte
        have hx : (UInt64.ofNat (max p.toNat ptr.toNat)).toNat = max p.toNat ptr.toNat :=
          UInt64.toNat_ofNat_of_lt' (by rw [UInt64.size]; omega)
        rwa [grants_samePage (w := p) (by omega)] at hbyte

end

/-- A table of which every entry points back to it, for a user to write. -/
def loopMemory : Mem FrameStack := ⟨⟨[], List.nodup_nil, nofun, fun _ _ => 0x100007⟩, 0, []⟩

theorem rangeOk_exact_two : ∃ b, AddressSpace.rangeOk FrameStack.pool ⟨0x100000, 0, false, none⟩
      0x1FFF 2 true loopMemory 2 = .ok b ∧
    (b ↔ ∀ x, (0x1FFF : UInt64).toNat ≤ x → x < (0x1FFF : UInt64).toNat + (2 : UInt64).toNat →
      UserByte FrameStack.pool ⟨0x100000, 0, false, none⟩ true loopMemory x) :=
  rangeOk_exact ⟨0x100000, 0, false, none⟩ 0x1FFF 2 true loopMemory (by decide)

end StarOs.Kernel
