import StarOs.Acpi.Covered

/-! Configuration space addresses. A window puts bus, device and function side by side below a
base that the firmware gives, and the sum with the base may overflow. -/

namespace StarOs.Acpi

open Library

namespace EcamWindow

/-- `config_address`: the addition to the base faults where it overflows. -/
def configAddress (w : EcamWindow) (bus dev func : UInt8) : Checked (Option UInt64) :=
  if bus < w.busStart ∨ bus > w.busEnd ∨ dev ≥ 32 ∨ func ≥ 8 then .ok none
  else do
    let offset := (bus - w.busStart).toUInt64 <<< 20 ||| dev.toUInt64 <<< 15 ||| func.toUInt64 <<< 12
    let address ← addWord w.base offset
    .ok (some address)

/-- The function is one of the window's. -/
structure Has (w : EcamWindow) (bus dev func : UInt8) : Prop where
  first : w.busStart.toNat ≤ bus.toNat
  last : bus.toNat ≤ w.busEnd.toNat
  dev : dev.toNat < 32
  func : func.toNat < 8

/-- Where a function's space begins, from the window's base. -/
def offset (w : EcamWindow) (bus dev func : ℕ) : ℕ :=
  (bus - w.busStart.toNat) * 2 ^ 20 + dev * 2 ^ 15 + func * 2 ^ 12

/-- How much address space the window's buses take. -/
def span (w : EcamWindow) : ℕ := (w.busEnd.toNat - w.busStart.toNat + 1) <<< 20

/-- Its functions are answered, each with an address of its own 4 KiB within the window. -/
structure Exact (w : EcamWindow) : Prop where
  answers : ∀ bus dev func, ∃ address, w.configAddress bus dev func = .ok address ∧
    (address.isSome ↔ w.Has bus dev func)
  apart : ∀ bus dev func bus' dev' func' a a', (bus, dev, func) ≠ (bus', dev', func') →
    w.configAddress bus dev func = .ok (some a) → w.configAddress bus' dev' func' = .ok (some a') →
    a.toNat + 4096 ≤ a'.toNat ∨ a'.toNat + 4096 ≤ a.toNat
  within : ∀ bus dev func a, w.configAddress bus dev func = .ok (some a) →
    w.base.toNat ≤ a.toNat ∧ a.toNat + 4096 ≤ w.base.toNat + w.span

/-- The window has no bus, or its last function has an address. -/
def Fits (w : EcamWindow) : Prop :=
  w.busEnd.toNat < w.busStart.toNat ∨ w.base.toNat + w.offset w.busEnd.toNat 31 7 < 2 ^ 64

instance (w : EcamWindow) : Decidable w.Fits := inferInstanceAs (Decidable (_ ∨ _))

section

variable {w : EcamWindow} {bus dev func bus' dev' func' : UInt8} {a a' : UInt64}

theorem not_has_iff : (bus < w.busStart ∨ bus > w.busEnd ∨ dev ≥ 32 ∨ func ≥ 8) ↔
    ¬w.Has bus dev func := by
  have h32 : (32 : UInt8).toNat = 32 := rfl
  have h8 : (8 : UInt8).toNat = 8 := rfl
  rw [gt_iff_lt, ge_iff_le, ge_iff_le, UInt8.lt_iff_toNat_lt, UInt8.lt_iff_toNat_lt,
    UInt8.le_iff_toNat_le, UInt8.le_iff_toNat_le, h32, h8]
  constructor
  · rintro h ⟨hfirst, hlast, hdev, hfunc⟩
    omega
  · intro h
    by_contra hno
    exact h ⟨by omega, by omega, by omega, by omega⟩

/-- The three fields of an offset do not overlap. -/
theorem toNat_fields (h : w.Has bus dev func) :
    ((bus - w.busStart).toUInt64 <<< 20 ||| dev.toUInt64 <<< 15 ||| func.toUInt64 <<< 12).toNat =
      w.offset bus.toNat dev.toNat func.toNat := by
  obtain ⟨hfirst, -, hdev, hfunc⟩ := h
  have hbus := bus.toNat_lt
  have hsub : (bus - w.busStart).toNat = bus.toNat - w.busStart.toNat :=
    UInt8.toNat_sub_of_le _ _ (UInt8.le_iff_toNat_le.mpr hfirst)
  have hshift : ∀ (x : UInt8) (k : UInt64) (n : ℕ), k.toNat % 64 = n → n ≤ 20 →
      (x.toUInt64 <<< k).toNat = x.toNat <<< n := by
    intro x k n hk hn
    have hx := x.toNat_lt
    have hpow : 2 ^ n ≤ 2 ^ 20 := Nat.pow_le_pow_right (by decide) hn
    rw [UInt64.toNat_shiftLeft, UInt8.toNat_toUInt64, hk, Nat.shiftLeft_eq, Nat.mod_eq_of_lt]
    calc x.toNat * 2 ^ n ≤ 2 ^ 8 * 2 ^ 20 := Nat.mul_le_mul (Nat.le_of_lt hx) hpow
      _ < 2 ^ 64 := by decide
  have hdev' : dev.toNat <<< 15 < 2 ^ 20 := by
    rw [Nat.shiftLeft_eq]
    omega
  have hfunc' : func.toNat <<< 12 < 2 ^ 15 := by
    rw [Nat.shiftLeft_eq]
    omega
  have hhigh : (bus.toNat - w.busStart.toNat) <<< 20 + dev.toNat <<< 15 =
      ((bus.toNat - w.busStart.toNat) * 32 + dev.toNat) <<< 15 := by
    rw [Nat.shiftLeft_eq, Nat.shiftLeft_eq, Nat.shiftLeft_eq]
    omega
  rw [UInt64.toNat_or, UInt64.toNat_or, hshift _ 20 20 rfl (by decide),
    hshift _ 15 15 rfl (by decide), hshift _ 12 12 rfl (by decide), hsub,
    ← Nat.shiftLeft_add_eq_or_of_lt hdev', hhigh, ← Nat.shiftLeft_add_eq_or_of_lt hfunc', offset,
    Nat.shiftLeft_eq, Nat.shiftLeft_eq]
  omega

theorem Has.offset_le (h : w.Has bus dev func) :
    w.offset bus.toNat dev.toNat func.toNat ≤ w.offset w.busEnd.toNat 31 7 := by
  obtain ⟨hfirst, hlast, hdev, hfunc⟩ := h
  unfold offset
  omega

theorem configAddress_not (h : ¬w.Has bus dev func) : w.configAddress bus dev func = .ok none :=
  if_pos (not_has_iff.mpr h)

theorem configAddress_fits (h : w.Has bus dev func)
    (hfits : w.base.toNat + w.offset bus.toNat dev.toNat func.toNat < 2 ^ 64) :
    ∃ a, w.configAddress bus dev func = .ok (some a) ∧
      a.toNat = w.base.toNat + w.offset bus.toNat dev.toNat func.toNat := by
  have hno := not_has_iff.not.mpr (not_not.mpr h)
  have hfields := toNat_fields h
  obtain ⟨hadd, hsum⟩ := addWord_eq (a := w.base) (hfields.symm ▸ hfits)
  simp only [configAddress, if_neg hno]
  exact ⟨_, by rw [hadd, checked_bind], by rw [hsum, hfields]⟩

/-- A function of the window whose address overflows has none. -/
theorem configAddress_over (h : w.Has bus dev func)
    (hover : ¬w.base.toNat + w.offset bus.toNat dev.toNat func.toNat < 2 ^ 64) :
    w.configAddress bus dev func = .error .overflow := by
  have hno := not_has_iff.not.mpr (not_not.mpr h)
  have hfields := toNat_fields h
  have hadd : addWord w.base ((bus - w.busStart).toUInt64 <<< 20 ||| dev.toUInt64 <<< 15 |||
      func.toUInt64 <<< 12) = .error .overflow := if_neg (hfields.symm ▸ hover)
  simp only [configAddress, if_neg hno, hadd]
  rfl

/-- An address that is answered is a function's, and the sum it is. -/
theorem has_of_configAddress (h : w.configAddress bus dev func = .ok (some a)) :
    w.Has bus dev func ∧ a.toNat = w.base.toNat + w.offset bus.toNat dev.toNat func.toNat := by
  by_cases hhas : w.Has bus dev func
  · by_cases hfits : w.base.toNat + w.offset bus.toNat dev.toNat func.toNat < 2 ^ 64
    · obtain ⟨a', ha', hsum⟩ := configAddress_fits hhas hfits
      obtain rfl : a' = a := by simpa using ha'.symm.trans h
      exact ⟨hhas, hsum⟩
    · rw [configAddress_over hhas hfits] at h
      cases h
  · rw [configAddress_not hhas] at h
    cases h

/-- Two functions of a window are a page or more apart. -/
theorem Has.apart (h : w.Has bus dev func) (h' : w.Has bus' dev' func')
    (hne : (bus, dev, func) ≠ (bus', dev', func')) :
    w.offset bus.toNat dev.toNat func.toNat + 4096 ≤ w.offset bus'.toNat dev'.toNat func'.toNat ∨
      w.offset bus'.toNat dev'.toNat func'.toNat + 4096 ≤ w.offset bus.toNat dev.toNat func.toNat := by
  obtain ⟨hfirst, -, hdev, hfunc⟩ := h
  obtain ⟨hfirst', -, hdev', hfunc'⟩ := h'
  have hdiff : bus.toNat ≠ bus'.toNat ∨ dev.toNat ≠ dev'.toNat ∨ func.toNat ≠ func'.toNat := by
    by_contra hsame
    rw [not_or, not_or, not_not, not_not, not_not] at hsame
    obtain ⟨hb, hd, hf⟩ := hsame
    exact hne (by rw [UInt8.toNat_inj.mp hb, UInt8.toNat_inj.mp hd, UInt8.toNat_inj.mp hf])
  unfold offset
  omega

/-- The last function's space is the end of the window. -/
theorem offset_last (w : EcamWindow) : w.offset w.busEnd.toNat 31 7 + 4096 = w.span := by
  unfold offset span
  rw [Nat.shiftLeft_eq]
  omega

/-- A window is exact when all its functions fit below the top of the address space. -/
theorem exact_iff (w : EcamWindow) : w.Exact ↔ w.Fits := by
  constructor
  · intro h
    by_cases hempty : w.busEnd.toNat < w.busStart.toNat
    · exact .inl hempty
    · right
      have hlast : w.Has w.busEnd 31 7 :=
        ⟨Nat.le_of_not_lt hempty, Nat.le_refl _, by decide, by decide⟩
      obtain ⟨r, hr, -⟩ := h.answers w.busEnd 31 7
      by_contra hover
      rw [configAddress_over hlast hover] at hr
      cases hr
  · intro h
    constructor
    · intro bus dev func
      by_cases hhas : w.Has bus dev func
      · have hle := hhas.offset_le
        have hbus := Nat.le_trans hhas.first hhas.last
        have hfits : w.base.toNat + w.offset bus.toNat dev.toNat func.toNat < 2 ^ 64 := by
          rcases h with h | h <;> omega
        obtain ⟨a, ha, -⟩ := configAddress_fits hhas hfits
        exact ⟨_, ha, iff_of_true rfl hhas⟩
      · exact ⟨_, configAddress_not hhas, iff_of_false nofun hhas⟩
    · intro bus dev func bus' dev' func' a a' hne ha ha'
      obtain ⟨hhas, hsum⟩ := has_of_configAddress ha
      obtain ⟨hhas', hsum'⟩ := has_of_configAddress ha'
      have hapart := hhas.apart hhas' hne
      omega
    · intro bus dev func a ha
      obtain ⟨hhas, hsum⟩ := has_of_configAddress ha
      have hle := hhas.offset_le
      have hspan := w.offset_last
      omega

end

end EcamWindow

/-- Reading any table ends, and a window it describes is exact just when it fits. -/
theorem ecam_windows_exact_iff (buf : Slice) : ∃ r, Mcfg.parse buf = .ok r ∧ ∀ m, r = some m →
    ∃ windows, m.windows = .ok windows ∧ ∀ w ∈ windows, (w.Exact ↔ w.Fits) := by
  have hparse : ∃ r, Mcfg.parse buf = .ok r := by
    by_cases hc : Checksummed buf
    · exact ⟨_, Mcfg.parse_of buf hc⟩
    · exact ⟨_, Mcfg.parse_none buf hc⟩
  obtain ⟨r, hr⟩ := hparse
  refine ⟨r, hr, fun m _ => ?_⟩
  obtain ⟨windows, hwindows⟩ := m.windows_ok
  exact ⟨windows, hwindows, fun w _ => w.exact_iff⟩

/-- A table with one window, of bus 0, on the last page there is. -/
def lastPageTable : Slice where
  bytes := [0x4D, 0x43, 0x46, 0x47, 0x3C, 0, 0, 0, 1, 0xBC] ++ List.replicate 34 0 ++
    [0x00, 0xF0, 0xFF, 0xFF, 0xFF, 0xFF, 0xFF, 0xFF] ++ List.replicate 8 0
  length_le := by decide

def lastPage : EcamWindow := ⟨0xFFFFFFFFFFFFF000, 0, 0, 0⟩

/-- Its function 1 passes the checks and has no address. -/
theorem lastPage_overflows :
    Mcfg.parse lastPageTable = .ok (some ⟨lastPageTable.sub 44 60⟩) ∧
      Mcfg.windows ⟨lastPageTable.sub 44 60⟩ = .ok [lastPage] ∧
      lastPage.Has 0 0 1 ∧ lastPage.configAddress 0 0 1 = .error .overflow ∧ ¬lastPage.Exact := by
  have hchecked : Checksummed lastPageTable := ⟨by decide, by decide, by decide +kernel⟩
  have hover : lastPage.configAddress 0 0 1 = .error .overflow := by decide +kernel
  refine ⟨?_, by decide +kernel, ⟨by decide, by decide, by decide, by decide⟩, hover, ?_⟩
  · rw [Mcfg.parse_of _ hchecked, Mcfg.ofTable, if_pos (by decide +kernel)]
    rfl
  · intro h
    obtain ⟨r, hr, -⟩ := h.answers 0 0 1
    rw [hover] at hr
    cases hr

end StarOs.Acpi
