import StarOs.Paging.Mapper

/-! The terms of the hand-off from the loader to the kernel that fix addresses: where physical
memory and the kernel's image are mapped, and where the screen is. -/

namespace StarOs.Bootinfo

open Paging

/-- Virtual base of the linear map of physical memory. -/
def physMapBase : UInt64 := 0xFFFF800000000000

theorem toNat_physMapBase : physMapBase.toNat = 2 ^ 64 - 2 ^ 47 := rfl

/-- Virtual base of the kernel's image. -/
def kernelVma : UInt64 := 0xFFFFFFFF80000000

def physToVirt (phys : UInt64) : UInt64 :=
  if physMapBase.toNat + phys.toNat < 2 ^ 64 then physMapBase + phys else 0xFFFFFFFFFFFFFFFF

structure Framebuffer where
  phys : UInt64
  width : UInt32
  height : UInt32
  stride : UInt32
  deriving DecidableEq

namespace Framebuffer

/-- `height * stride`, which fits. -/
def bytes (fb : Framebuffer) : UInt64 := fb.height.toUInt64 * fb.stride.toUInt64

/-- The product wraps, as it does without overflow checks. -/
def isSane (fb : Framebuffer) : Bool :=
  fb.phys ≠ 0 && fb.width > 0 && fb.height > 0 && fb.stride ≥ fb.width * 4

theorem bytes_toNat (fb : Framebuffer) : fb.bytes.toNat = fb.height.toNat * fb.stride.toNat := by
  have hh := fb.height.toNat_lt
  have hs := fb.stride.toNat_lt
  rw [bytes, UInt64.toNat_mul, UInt32.toNat_toUInt64, UInt32.toNat_toUInt64, Nat.mod_eq_of_lt]
  calc fb.height.toNat * fb.stride.toNat
      ≤ (2 ^ 32 - 1) * (2 ^ 32 - 1) := Nat.mul_le_mul (by omega) (by omega)
    _ < 2 ^ 64 := by decide

/-- Byte `i` is there to be drawn on, at its address in the linear map. -/
def ByteShown {σ : Type} (fb : Framebuffer) (F : FrameSource σ) (m : Mapper) (s : σ) (i : ℕ) :
    Prop :=
  ∃ v t, v.toNat = physMapBase.toNat + (fb.phys.toNat + i) ∧ m.translate F v s = some t ∧
    t.phys.toNat = fb.phys.toNat + i ∧ t.rights.write

def Shown {σ : Type} (fb : Framebuffer) (F : FrameSource σ) (m : Mapper) (s : σ) : Prop :=
  ∀ i < fb.bytes.toNat, fb.ByteShown F m s i

/-- Above the base of the linear map there are addresses for all of the screen. -/
def Addressable (fb : Framebuffer) : Prop :=
  fb.phys.toNat < 2 ^ 47 ∧ fb.phys.toNat + fb.bytes.toNat ≤ 2 ^ 47

end Framebuffer

/-- How much physical memory the linear map can reach before it meets the kernel's image. -/
def window : ℕ := kernelVma.toNat - physMapBase.toNat

theorem window_eq : window = 0x7FFF80000000 := rfl

namespace Framebuffer

/-- The screen's first page. -/
def base (fb : Framebuffer) : UInt64 := fb.phys &&& ~~~(pageSize - 1)

/-- The pages of such a screen. -/
structure Pages (fb : Framebuffer) (endAddr : UInt64) : Prop where
  sum : (fb.phys + fb.bytes).toNat = fb.phys.toNat + fb.bytes.toNat
  base_aligned : fb.base.toNat % 4096 = 0
  base_le : fb.base.toNat ≤ fb.phys.toNat
  lt_base : fb.phys.toNat < fb.base.toNat + 4096
  end_aligned : endAddr.toNat % 4096 = 0
  le_end : fb.phys.toNat + fb.bytes.toNat ≤ endAddr.toNat
  end_lt : endAddr.toNat < fb.phys.toNat + fb.bytes.toNat + 4096
  virt : (physMapBase + fb.base).toNat = physMapBase.toNat + fb.base.toNat
  len : (endAddr - fb.base).toNat = endAddr.toNat - fb.base.toNat

theorem base_toNat (fb : Framebuffer) : fb.base.toNat = fb.phys.toNat / 4096 * 4096 :=
  (page_parts fb.phys 0).2

theorem Addressable.pages {fb : Framebuffer} (h : fb.Addressable) :
    fb.Pages (nextMultipleOf (fb.phys + fb.bytes) pageSize) := by
  obtain ⟨hphys, hlast⟩ := h
  have hsum : (fb.phys + fb.bytes).toNat = fb.phys.toNat + fb.bytes.toNat := by
    rw [UInt64.toNat_add, Nat.mod_eq_of_lt (by omega)]
  have hbase := fb.base_toNat
  obtain ⟨hmod, hle, hlt⟩ := @nextMultipleOf_spec (fb.phys + fb.bytes) pageSize (by decide)
    (by rw [hsum]; have : pageSize.toNat = 4096 := rfl; omega)
  rw [hsum] at hle hlt
  have hpage : pageSize.toNat = 4096 := rfl
  rw [hpage] at hmod hlt
  have hP := toNat_physMapBase
  refine ⟨hsum, by omega, by omega, by omega, hmod, hle, hlt, ?_, ?_⟩
  · rw [UInt64.toNat_add, Nat.mod_eq_of_lt (by omega)]
  · exact UInt64.toNat_sub_of_le _ _ (UInt64.le_iff_toNat_le.mpr (by omega))

/-- A screen below the kernel's image is addressable. -/
theorem addressable_of_le {fb : Framebuffer} (h : fb.phys.toNat + fb.bytes.toNat ≤ window) :
    fb.Addressable := by
  rw [window_eq] at h
  unfold Addressable
  omega

/-- A byte that is shown has an address. -/
theorem ByteShown.lt {σ : Type} {fb : Framebuffer} {F : FrameSource σ} {m : Mapper} {s : σ} {i : ℕ}
    (h : fb.ByteShown F m s i) : fb.phys.toNat + i < 2 ^ 47 := by
  obtain ⟨v, t, hv, -⟩ := h
  have hlt := v.toNat_lt
  rw [hv, toNat_physMapBase] at hlt
  omega

/-- The address of a byte, where there is one. -/
theorem toNat_byte {fb : Framebuffer} {i : ℕ} (h : fb.phys.toNat + i < 2 ^ 47) :
    (UInt64.ofNat (physMapBase.toNat + (fb.phys.toNat + i))).toNat =
      physMapBase.toNat + (fb.phys.toNat + i) := by
  have hP := toNat_physMapBase
  rw [UInt64.toNat_ofNat', Nat.mod_eq_of_lt (by omega)]

/-- A screen is shown only where it has no bytes or has addresses for them. -/
theorem Shown.addressable {σ : Type} {fb : Framebuffer} {F : FrameSource σ} {m : Mapper} {s : σ}
    (h : fb.Shown F m s) : fb.bytes.toNat = 0 ∨ fb.Addressable := by
  obtain hnone | hpos := Nat.eq_zero_or_pos fb.bytes.toNat
  · exact .inl hnone
  · have hlast := (h (fb.bytes.toNat - 1) (by omega)).lt
    refine .inr ⟨?_, ?_⟩ <;> omega

end Framebuffer

end StarOs.Bootinfo
