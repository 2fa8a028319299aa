import Mathlib.Algebra.Group.Nat.Defs
import Mathlib.Tactic.Common

/-! The HPET's counter: conversions between ticks and nanoseconds, the busy wait, and the
deadlines the kernel makes of two stamps. A conversion that rounds down asks for too few ticks,
and stamps taken from zero do not survive the counter's wrap. -/

namespace StarOs.Arch

def maxPeriodFs : UInt32 := 100000000

/-- `u64::saturating_mul` -/
def saturatingMul (a b : UInt64) : UInt64 := UInt64.ofNat (min (a.toNat * b.toNat) (2 ^ 64 - 1))

/-- `u64::saturating_sub` -/
def saturatingSub (a b : UInt64) : UInt64 := UInt64.ofNat (a.toNat - b.toNat)

structure Capabilities where
  periodFs : UInt32
  timers : UInt8
  counter64bit : Bool
  vendor : UInt16
  revision : UInt8
  period_pos : 0 < periodFs.toNat
  period_le : periodFs.toNat ≤ 100000000

namespace Capabilities

def fromBits (bits : UInt64) : Option Capabilities :=
  let period := (bits >>> 32).toUInt32
  if h : period = 0 ∨ period > maxPeriodFs then none
  else some {
    periodFs := period
    timers := ((bits >>> 8) &&& 0x1F).toUInt8 + 1
    counter64bit := bits &&& ((1 : UInt64) <<< 13) != 0
    vendor := (bits >>> 16).toUInt16
    revision := bits.toUInt8
    period_pos := by
      have hne : period.toNat ≠ 0 := fun hz => h (.inl (UInt32.toNat_inj.mp hz))
      omega
    period_le := by
      have hle : ¬maxPeriodFs.toNat < period.toNat := fun hlt => h (.inr hlt)
      exact Nat.le_of_not_lt hle }

/-- `fs / 1_000_000` in `u128`, and its low half. -/
def ticksToNs (c : Capabilities) (ticks : UInt64) : UInt64 :=
  UInt64.ofNat (ticks.toNat * c.periodFs.toNat / 1000000)

def nsToTicks (c : Capabilities) (ns : UInt64) : UInt64 :=
  UInt64.ofNat (ns.toNat * 1000000 / c.periodFs.toNat)

/-- `Hpet::elapsed` -/
def elapsed (c : Capabilities) (start stop : UInt64) : UInt64 :=
  if c.counter64bit then stop - start else (stop.toUInt32 - start.toUInt32).toUInt64

/-- `Hpet::elapsed_ns` -/
def elapsedNs (c : Capabilities) (start stop : UInt64) : UInt64 :=
  c.ticksToNs (c.elapsed start stop)

/-- The loop of `spin_ns` over what the counter reads: the reading it returns at, or none while
it spins. -/
def spin (c : Capabilities) (start target : UInt64) : List UInt64 → Option UInt64
  | [] => none
  | now :: rest => if c.elapsed start now ≥ target then some now else spin c start target rest

/-- `Hpet::spin_ns`: its first reading, and the one it returns at. -/
def spinNs (c : Capabilities) (ns : UInt64) : List UInt64 → Option (UInt64 × UInt64)
  | [] => none
  | start :: readings => (c.spin start (c.nsToTicks ns) readings).map fun last => (start, last)

/-- `stall_micros`, on a machine with an HPET. -/
def stallMicros (c : Capabilities) (micros : UInt64) (readings : List UInt64) :
    Option (UInt64 × UInt64) :=
  c.spinNs (saturatingMul micros 1000) readings

/-- `now_ns`, when the counter reads `now`. -/
def nowNs (c : Capabilities) (now : UInt64) : UInt64 := c.elapsedNs 0 now

/-- `deadline_micros` called at the reading `start`, and asked at `now`. -/
def deadlineMicros (c : Capabilities) (micros start now : UInt64) : Bool :=
  saturatingSub (c.nowNs now) (c.nowNs start) ≥ saturatingMul micros 1000

/-! ### Counts -/

/-- How wide the counter is. -/
def width (c : Capabilities) : ℕ := if c.counter64bit then 64 else 32

/-- What the counter itself holds of a reading. -/
def count (c : Capabilities) (reading : UInt64) : ℕ := reading.toNat % 2 ^ c.width

/-- The nanoseconds of so many ticks, as a number without bounds. -/
def exactNs (c : Capabilities) (ticks : ℕ) : ℕ := ticks * c.periodFs.toNat / 1000000

section

variable (c : Capabilities) (start stop now ns micros : UInt64)

theorem count_lt : c.count now < 2 ^ c.width := Nat.mod_lt _ (Nat.two_pow_pos _)

theorem width_cases : c.width = 64 ∨ c.width = 32 := by
  unfold width
  split
  · exact .inl rfl
  · exact .inr rfl

/-- Elapsed ticks, up to the wrap. -/
theorem toNat_elapsed : (c.elapsed start stop).toNat =
    if c.count start ≤ c.count stop then c.count stop - c.count start
    else 2 ^ c.width - c.count start + c.count stop := by
  have hstart := start.toNat_lt
  have hstop := stop.toNat_lt
  unfold elapsed count width
  split
  · rw [UInt64.toNat_sub]
    split <;> omega
  · rw [UInt32.toNat_toUInt64, UInt32.toNat_sub, UInt64.toNat_toUInt32, UInt64.toNat_toUInt32]
    split <;> omega

theorem toNat_ticksToNs (ticks : UInt64) : (c.ticksToNs ticks).toNat = c.exactNs ticks.toNat % 2 ^ 64 :=
  UInt64.toNat_ofNat'

theorem toNat_nowNs : (c.nowNs now).toNat = c.exactNs (c.count now) % 2 ^ 64 := by
  have hzero : c.count 0 = 0 := Nat.zero_mod _
  rw [nowNs, elapsedNs, toNat_ticksToNs, toNat_elapsed, hzero, if_pos (Nat.zero_le _), Nat.sub_zero]

theorem toNat_saturatingMul (a b : UInt64) :
    (saturatingMul a b).toNat = min (a.toNat * b.toNat) (2 ^ 64 - 1) := by
  rw [saturatingMul, UInt64.toNat_ofNat']
  omega

theorem toNat_saturatingSub (a b : UInt64) : (saturatingSub a b).toNat = a.toNat - b.toNat := by
  have := a.toNat_lt
  rw [saturatingSub, UInt64.toNat_ofNat']
  omega

/-- The predicate, over numbers. -/
theorem deadlineMicros_iff : c.deadlineMicros micros start now = true ↔
    min (micros.toNat * 1000) (2 ^ 64 - 1) ≤
      c.exactNs (c.count now) % 2 ^ 64 - c.exactNs (c.count start) % 2 ^ 64 := by
  rw [deadlineMicros, decide_eq_true_eq, ge_iff_le, UInt64.le_iff_toNat_le, toNat_saturatingMul,
    toNat_saturatingSub, toNat_nowNs, toNat_nowNs]
  rfl

end

/-! ### The busy wait -/

/-- The ticks from `start` to `last` make at least `ns` nanoseconds. -/
def Waited (c : Capabilities) (ns start last : UInt64) : Prop :=
  ns.toNat * 1000000 ≤ (c.elapsed start last).toNat * c.periodFs.toNat

section

variable {c : Capabilities} {ns start last target : UInt64} {readings : List UInt64}

theorem spin_reaches (h : c.spin start target readings = some last) :
    target.toNat ≤ (c.elapsed start last).toNat := by
  induction readings with
  | nil => cases h
  | cons now rest ih =>
    rw [spin] at h
    split at h
    · next hge =>
      obtain rfl := Option.some.inj h
      exact UInt64.le_iff_toNat_le.mp hge
    · exact ih h

theorem toNat_nsToTicks (hfits : ns.toNat * 1000000 / c.periodFs.toNat < 2 ^ c.width) :
    (c.nsToTicks ns).toNat = ns.toNat * 1000000 / c.periodFs.toNat := by
  refine UInt64.toNat_ofNat_of_lt' (Nat.lt_of_lt_of_le hfits ?_)
  obtain hw | hw := c.width_cases
  · rw [hw]
    exact Nat.le_refl _
  · rw [hw, UInt64.size]
    omega

/-- Rounding the target down loses the last part of a tick, when there is one. -/
theorem waited_iff (hfits : ns.toNat * 1000000 / c.periodFs.toNat < 2 ^ c.width)
    (hreach : (c.nsToTicks ns).toNat ≤ (c.elapsed start last).toNat) :
    c.Waited ns start last ↔
      c.periodFs.toNat ∣ ns.toNat * 1000000 ∨ c.elapsed start last ≠ c.nsToTicks ns := by
  have hdiv := Nat.div_add_mod (ns.toNat * 1000000) c.periodFs.toNat
  have hmod := Nat.mod_lt (ns.toNat * 1000000) c.period_pos
  rw [ne_eq, ← UInt64.toNat_inj, Waited]
  rw [toNat_nsToTicks hfits] at hreach ⊢
  generalize ns.toNat * 1000000 = fs at *
  generalize hq : fs / c.periodFs.toNat = q at *
  generalize (c.elapsed start last).toNat = ticks at *
  constructor
  · intro hle
    refine or_iff_not_imp_right.mpr fun heq => Nat.dvd_of_mod_eq_zero ?_
    rw [not_not.mp heq, Nat.mul_comm] at hle
    omega
  · rintro (hdvd | hne)
    · rw [Nat.mod_eq_zero_of_dvd hdvd, Nat.add_zero] at hdiv
      calc fs = q * c.periodFs.toNat := by rw [← hdiv, Nat.mul_comm]
        _ ≤ ticks * c.periodFs.toNat := Nat.mul_le_mul_right _ hreach
    · have hlt : q + 1 ≤ ticks := by omega
      calc fs ≤ c.periodFs.toNat * q + c.periodFs.toNat := by omega
        _ = (q + 1) * c.periodFs.toNat := by rw [Nat.add_mul, Nat.one_mul, Nat.mul_comm]
        _ ≤ ticks * c.periodFs.toNat := Nat.mul_le_mul_right _ hlt

/-- A target the counter can hold is reached exactly by some reading. -/
theorem spinNs_exact (hfits : ns.toNat * 1000000 / c.periodFs.toNat < 2 ^ c.width) :
    c.spinNs ns [0, c.nsToTicks ns] = some (0, c.nsToTicks ns) ∧
      c.elapsed 0 (c.nsToTicks ns) = c.nsToTicks ns := by
  have hzero : c.count 0 = 0 := Nat.zero_mod _
  have hcount : c.count (c.nsToTicks ns) = (c.nsToTicks ns).toNat :=
    Nat.mod_eq_of_lt (by rw [toNat_nsToTicks hfits]; exact hfits)
  have heq : c.elapsed 0 (c.nsToTicks ns) = c.nsToTicks ns := by
    rw [← UInt64.toNat_inj, toNat_elapsed, hzero, if_pos (Nat.zero_le _), Nat.sub_zero, hcount]
  refine ⟨?_, heq⟩
  simp only [spinNs, spin, heq, ge_iff_le, UInt64.le_refl, if_true, Option.map_some]

/-- `spin_ns` never returns early, whatever the counter reads, exactly when the period divides
the request; and a call returns early when it returns on the very tick the target names. -/
theorem spinNs_waits_iff (c : Capabilities) (ns : UInt64)
    (hfits : ns.toNat * 1000000 / c.periodFs.toNat < 2 ^ c.width) :
    ((∀ readings start last, c.spinNs ns readings = some (start, last) → c.Waited ns start last) ↔
      c.periodFs.toNat ∣ ns.toNat * 1000000) ∧
    ∀ readings start last, c.spinNs ns readings = some (start, last) → (c.Waited ns start last ↔
      c.periodFs.toNat ∣ ns.toNat * 1000000 ∨ c.elapsed start last ≠ c.nsToTicks ns) := by
  have hcall : ∀ readings start last, c.spinNs ns readings = some (start, last) →
      (c.Waited ns start last ↔
        c.periodFs.toNat ∣ ns.toNat * 1000000 ∨ c.elapsed start last ≠ c.nsToTicks ns) := by
    intro readings start last h
    cases readings with
    | nil => cases h
    | cons first rest =>
      obtain ⟨now, hspin, heq⟩ := Option.map_eq_some_iff.mp h
      obtain ⟨rfl, rfl⟩ := Prod.ext_iff.mp heq
      exact waited_iff hfits (spin_reaches hspin)
  refine ⟨⟨fun h => ?_, fun hdvd readings start last hspin => ?_⟩, hcall⟩
  · obtain ⟨hspin, heq⟩ := c.spinNs_exact hfits
    have hor := (hcall _ _ _ hspin).mp (h _ _ _ hspin)
    exact hor.resolve_right fun hne => hne heq
  · exact (hcall _ _ _ hspin).mpr (.inl hdvd)

end

/-- Ten nanoseconds a tick divide ten milliseconds. -/
theorem spinNs_waits_qemu :
    Waited ⟨10000000, 3, true, 0x8086, 1, by decide, by decide⟩ 10000000 5 1000005 :=
  ((spinNs_waits_iff _ 10000000 (by decide)).2 [5, 1000004, 1000005] 5 1000005 (by decide +kernel)).mpr
    (.inl (by decide))

/-- On the usual 14.318 MHz counter the delay after INIT is short of its ten milliseconds. -/
theorem stallMicros_short : ∃ c, fromBits 0x0429B17F00000000 = some c ∧
    c.stallMicros 10000 [0, 143180, 143181] = some (0, 143181) ∧
    c.nsToTicks 10000000 = 143181 ∧ ¬c.Waited 10000000 0 143181 := by
  refine ⟨⟨69841279, 1, false, 0, 0, by decide, by decide⟩, rfl, by decide +kernel, by decide +kernel, ?_⟩
  unfold Waited
  decide +kernel

/-! ### Deadlines -/

/-- The nanoseconds elapsed between two readings, the counter's wrap included. -/
def passed (c : Capabilities) (start now : UInt64) : ℕ := c.exactNs (c.elapsed start now).toNat

/-- Asked at `now`, the deadline of `micros` from `start` has fired if it is due, and only then,
up to the rounding of one stamp. -/
def FiresWhenDue (c : Capabilities) (micros start now : UInt64) : Prop :=
  (micros.toNat * 1000 ≤ c.passed start now → c.deadlineMicros micros start now = true) ∧
    (c.deadlineMicros micros start now = true → micros.toNat * 1000 ≤ c.passed start now + 1)

/-- Neither the counter nor the stamp in nanoseconds has wrapped, and the stamps are not as far
apart as stamps can be. -/
structure Unwrapped (c : Capabilities) (start now : UInt64) : Prop where
  counter : c.count start ≤ c.count now
  stamp : c.exactNs (c.count start) / 2 ^ 64 = c.exactNs (c.count now) / 2 ^ 64
  apart : c.exactNs (c.count now) - c.exactNs (c.count start) < 2 ^ 64 - 1

section

variable {c : Capabilities} {start now micros : UInt64}

/-- Without a wrap the stamps are as far apart as the readings, to a nanosecond. -/
theorem passed_of_le (h : c.count start ≤ c.count now) :
    c.exactNs (c.count start) + c.passed start now ≤ c.exactNs (c.count now) ∧
      c.exactNs (c.count now) ≤ c.exactNs (c.count start) + c.passed start now + 1 := by
  have hmul : (c.count now - c.count start) * c.periodFs.toNat + c.count start * c.periodFs.toNat =
      c.count now * c.periodFs.toNat := by
    rw [← Nat.add_mul, Nat.sub_add_cancel h]
  rw [passed, toNat_elapsed, if_pos h]
  unfold exactNs
  generalize (c.count now - c.count start) * c.periodFs.toNat = ticks at *
  omega

/-- Across a wrap of the counter, what one period of it lasts is made up of the time from the
later count to the earlier one and of the time passed. -/
theorem passed_of_wrapped (h : c.count now < c.count start) : ∃ before after ticks,
    before = c.count start * c.periodFs.toNat ∧ after = c.count now * c.periodFs.toNat ∧
    ticks + before = 2 ^ c.width * c.periodFs.toNat + after ∧
    before + c.periodFs.toNat ≤ 2 ^ c.width * c.periodFs.toNat ∧
    after + c.periodFs.toNat ≤ before ∧ c.passed start now = ticks / 1000000 := by
  have hlt := c.count_lt start
  refine ⟨_, _, (2 ^ c.width - c.count start + c.count now) * c.periodFs.toNat, rfl, rfl, ?_, ?_, ?_, ?_⟩
  · rw [← Nat.add_mul, ← Nat.add_mul]
    congr 1
    omega
  · calc c.count start * c.periodFs.toNat + c.periodFs.toNat
        = (c.count start + 1) * c.periodFs.toNat := by rw [Nat.add_mul, Nat.one_mul]
      _ ≤ 2 ^ c.width * c.periodFs.toNat := Nat.mul_le_mul_right _ hlt
  · calc c.count now * c.periodFs.toNat + c.periodFs.toNat
        = (c.count now + 1) * c.periodFs.toNat := by rw [Nat.add_mul, Nat.one_mul]
      _ ≤ c.count start * c.periodFs.toNat := Nat.mul_le_mul_right _ h
  · rw [passed, toNat_elapsed, if_neg (by omega), exactNs]

/-- How far apart the stamps are that the predicate subtracts. -/
def stampsApart (c : Capabilities) (start now : UInt64) : ℕ :=
  c.exactNs (c.count now) % 2 ^ 64 - c.exactNs (c.count start) % 2 ^ 64

/-- The stamps of a 64-bit counter wrap by themselves: `whole` times before the counter does, and
then a part of their range is left over, unless the period is a whole number of nanoseconds. -/
theorem apart_of_counter64 {p before after ticks : ℕ} (hpos : 0 < p)
    (hsum : ticks + before = 2 ^ 64 * p + after) (hroom : before + p ≤ 2 ^ 64 * p) :
    after / 1000000 % 2 ^ 64 - before / 1000000 % 2 ^ 64 = 0 ∨
      after / 1000000 % 2 ^ 64 - before / 1000000 % 2 ^ 64 + 1000 ≤ ticks / 1000000 := by
  obtain ⟨whole, part, hp, hpart⟩ : ∃ whole part, p = 1000000 * whole + part ∧ part < 1000000 :=
    ⟨p / 1000000, p % 1000000, by omega, by omega⟩
  subst hp
  obtain ⟨rest, hrest, hnone, hsome⟩ : ∃ rest, rest = 2 ^ 64 * part / 1000000 ∧
      (part = 0 → rest = 0) ∧ (0 < part → 2000 ≤ rest ∧ rest < 2 ^ 64) :=
    ⟨_, rfl, by omega, by omega⟩
  generalize hA : before / 1000000 = A
  generalize hB : after / 1000000 = B
  generalize hf : ticks / 1000000 = f
  have hbelow : A ≤ 2 ^ 64 * whole + rest := by omega
  have hstrict : part = 0 → A < 2 ^ 64 * whole := by omega
  have hfar : 2 ^ 64 * whole + rest + B ≤ f + A + 1 := by omega
  have hdivA := Nat.div_add_mod A (2 ^ 64)
  have hdivB := Nat.div_add_mod B (2 ^ 64)
  have hmodA := Nat.mod_lt A (Nat.two_pow_pos 64)
  have hmodB := Nat.mod_lt B (Nat.two_pow_pos 64)
  clear hA hB hf hsum hroom hpos hrest
  generalize A / 2 ^ 64 = jA at *
  generalize A % 2 ^ 64 = a at *
  generalize B / 2 ^ 64 = jB at *
  generalize B % 2 ^ 64 = b at *
  by_cases hz : part = 0
  · have hless : jA < whole := by
      have := hstrict hz
      omega
    omega
  · have hle : jA ≤ whole := by
      have := hsome (Nat.pos_of_ne_zero hz)
      omega
    omega

/-- A counter that wrapped leaves the stamps no distance apart, or one that is too short by
more than a microsecond. -/
theorem stampsApart_of_wrapped (h : c.count now < c.count start) :
    c.stampsApart start now = 0 ∨ c.stampsApart start now + 1000 ≤ c.passed start now := by
  obtain ⟨before, after, ticks, hbefore, hafter, hsum, hroom, hgap, hpassed⟩ := passed_of_wrapped h
  have hpos := c.period_pos
  have hle := c.period_le
  rw [hpassed, stampsApart, exactNs, exactNs, ← hbefore, ← hafter]
  obtain hw | hw := c.width_cases
  · rw [hw] at hsum hroom
    exact apart_of_counter64 hpos hsum hroom
  · rw [hw] at hroom
    have hshort : before / 1000000 < 2 ^ 64 := by omega
    have hmono : after / 1000000 ≤ before / 1000000 := Nat.div_le_div_right (by omega)
    rw [Nat.mod_eq_of_lt hshort, Nat.mod_eq_of_lt (Nat.lt_of_le_of_lt hmono hshort)]
    exact .inl (Nat.sub_eq_zero_of_le hmono)

/-- So does a stamp that wrapped. -/
theorem stampsApart_of_stamp (h : c.count start ≤ c.count now)
    (hstamp : c.exactNs (c.count start) / 2 ^ 64 ≠ c.exactNs (c.count now) / 2 ^ 64) :
    c.stampsApart start now = 0 ∨ c.stampsApart start now + 1000 ≤ c.passed start now := by
  obtain ⟨hlow, hhigh⟩ := passed_of_le h
  unfold stampsApart
  generalize c.exactNs (c.count start) = A at *
  generalize c.exactNs (c.count now) = B at *
  generalize c.passed start now = f at *
  omega

/-- Readings between which nothing wrapped, or less than a microsecond passed, serve every
deadline. -/
theorem firesWhenDue_of (micros : UInt64)
    (h : c.passed start now < 1000 ∨ c.Unwrapped start now) : c.FiresWhenDue micros start now := by
  have hstraight : c.Unwrapped start now → c.passed start now ≤ c.stampsApart start now ∧
      c.stampsApart start now ≤ c.passed start now + 1 ∧ c.stampsApart start now < 2 ^ 64 - 1 := by
    rintro ⟨hcounter, hstamp, hapart⟩
    obtain ⟨hlow, hhigh⟩ := passed_of_le hcounter
    unfold stampsApart
    omega
  have hfew : c.passed start now < 1000 → c.stampsApart start now ≤ c.passed start now + 1 := by
    intro hfew
    by_cases hcounter : c.count start ≤ c.count now
    · by_cases hstamp : c.exactNs (c.count start) / 2 ^ 64 = c.exactNs (c.count now) / 2 ^ 64
      · obtain ⟨hlow, hhigh⟩ := passed_of_le hcounter
        unfold stampsApart
        omega
      · have := stampsApart_of_stamp hcounter hstamp
        omega
    · have := stampsApart_of_wrapped (Nat.lt_of_not_le hcounter)
      omega
  rw [FiresWhenDue, deadlineMicros_iff]
  change (_ → min _ _ ≤ c.stampsApart start now) ∧ (min _ _ ≤ c.stampsApart start now → _)
  obtain hlt | hun := h
  · have := hfew hlt
    omega
  · have := hstraight hun
    omega

theorem passed_le : c.passed start now ≤ 2 ^ 64 * 100 := by
  have hticks := (c.elapsed start now).toNat_lt
  have hmul : (c.elapsed start now).toNat * c.periodFs.toNat ≤ 2 ^ 64 * 100000000 :=
    Nat.mul_le_mul (Nat.le_of_lt hticks) c.period_le
  rw [passed, exactNs]
  omega

/-- Readings a microsecond apart that serve every deadline have no wrap between them: the
longest deadline that is due, and the longest there is, tell. -/
theorem unwrapped_of_fires (hlong : 1000 ≤ c.passed start now)
    (h : ∀ micros, c.FiresWhenDue micros start now) : c.Unwrapped start now := by
  have hle : c.passed start now ≤ 2 ^ 64 * 100 := passed_le
  simp only [FiresWhenDue, deadlineMicros_iff] at h
  change ∀ micros : UInt64, (_ → min _ _ ≤ c.stampsApart start now) ∧
    (min _ _ ≤ c.stampsApart start now → _) at h
  have hdue : min (c.passed start now / 1000 * 1000) (2 ^ 64 - 1) ≤ c.stampsApart start now := by
    have hmicros : (UInt64.ofNat (c.passed start now / 1000)).toNat = c.passed start now / 1000 :=
      UInt64.toNat_ofNat_of_lt' (by rw [UInt64.size]; omega)
    have := (h (UInt64.ofNat (c.passed start now / 1000))).1
    rw [hmicros] at this
    exact this (Nat.div_mul_le_self _ _)
  have hapart : c.stampsApart start now < 2 ^ 64 - 1 := by
    refine Nat.lt_of_not_le fun hge => ?_
    have hmax : (18446744073709551615 : UInt64).toNat = 2 ^ 64 - 1 := rfl
    have := (h 18446744073709551615).2
    rw [hmax] at this
    have := this (Nat.le_trans (Nat.min_le_right _ _) hge)
    omega
  have hcounter : c.count start ≤ c.count now := by
    refine Nat.le_of_not_lt fun hwrapped => ?_
    have := stampsApart_of_wrapped hwrapped
    omega
  have hstamp : c.exactNs (c.count start) / 2 ^ 64 = c.exactNs (c.count now) / 2 ^ 64 := by
    refine not_not.mp fun hne => ?_
    have := stampsApart_of_stamp hcounter hne
    omega
  refine ⟨hcounter, hstamp, ?_⟩
  unfold stampsApart at hapart
  omega

/-- A 32-bit counter's stamps never wrap, so a deadline made too close to the counter's own wrap
is one that no reading meets. -/
theorem fires_iff_left (hnarrow : c.counter64bit = false) : (∃ now, c.deadlineMicros micros start now = true) ↔
    micros.toNat * 1000 ≤ c.exactNs (2 ^ 32 - 1) - c.exactNs (c.count start) := by
  have hwidth : c.width = 32 := by rw [width, hnarrow]; rfl
  have hmono : ∀ reading : UInt64, c.exactNs (c.count reading) ≤ c.exactNs (2 ^ 32 - 1) := by
    intro reading
    have hlt := c.count_lt reading
    rw [hwidth] at hlt
    exact Nat.div_le_div_right (Nat.mul_le_mul_right _ (by omega))
  have hshort : c.exactNs (2 ^ 32 - 1) < 2 ^ 64 - 1 := by
    have hmul := Nat.mul_le_mul_left (2 ^ 32 - 1) c.period_le
    rw [exactNs]
    omega
  have hlast : c.count 4294967295 = 2 ^ 32 - 1 := by rw [count, hwidth]; rfl
  have hstamp : ∀ reading : UInt64, c.exactNs (c.count reading) % 2 ^ 64 = c.exactNs (c.count reading) :=
    fun reading => Nat.mod_eq_of_lt (by have := hmono reading; omega)
  simp only [deadlineMicros_iff, hstamp]
  have hstart := hmono start
  constructor
  · rintro ⟨now, hle⟩
    have := hmono now
    omega
  · intro hle
    refine ⟨4294967295, ?_⟩
    rw [hlast]
    omega

end

end Capabilities

/-! ### The wait -/

/-- Delivery status: set while the last command is still being sent. -/
def icrDeliveryPending : UInt32 := (1 : UInt32) <<< 12

/-- `LocalApic::wait_idle` over its turns, each what `ICR_LOW` reads and what the clock of
`expired` reads: how it returns, or none while it spins. -/
def waitIdle (expired : UInt64 → Bool) : List (UInt32 × UInt64) → Option (Option Unit)
  | [] => none
  | (icr, now) :: rest =>
    if icr &&& icrDeliveryPending = 0 then some (some ())
    else if expired now then some none
    else waitIdle expired rest

/-- No turn finds the command delivered. -/
def Wedged (turns : List (UInt32 × UInt64)) : Prop :=
  ∀ turn ∈ turns, turn.1 &&& icrDeliveryPending ≠ 0

/-- On a wedged APIC only the deadline ends the wait. -/
theorem waitIdle_wedged {expired : UInt64 → Bool} {turns : List (UInt32 × UInt64)} (h : Wedged turns) :
    waitIdle expired turns = if ∃ turn ∈ turns, expired turn.2 = true then some none else none := by
  induction turns with
  | nil => simp [waitIdle]
  | cons turn rest ih =>
    obtain ⟨icr, now⟩ := turn
    have hrest : Wedged rest := fun turn hmem => h turn (List.mem_cons_of_mem _ hmem)
    rw [waitIdle, if_neg (h (icr, now) List.mem_cons_self)]
    cases hexp : expired now with
    | true => rw [if_pos rfl, if_pos ⟨(icr, now), List.mem_cons_self, hexp⟩]
    | false =>
      rw [if_neg Bool.false_ne_true, ih hrest]
      refine if_congr ?_ rfl rfl
      simp [List.mem_cons, or_and_right, exists_or, hexp]

open Capabilities in
/-- Two readings serve every deadline exactly when nothing wrapped between them, or less than a
microsecond passed. A wait on a wedged APIC then gives up at a turn that is due; it can give up at
all, with a 32-bit counter, exactly when the deadline falls before the counter wraps. -/
theorem deadlines_fire_iff (c : Capabilities) (start : UInt64) :
    (∀ now, (∀ micros, c.FiresWhenDue micros start now) ↔
      c.passed start now < 1000 ∨ c.Unwrapped start now) ∧
    (∀ micros turns, Wedged turns →
      (∃ turn ∈ turns, micros.toNat * 1000 ≤ c.passed start turn.2 ∧ c.Unwrapped start turn.2) →
      waitIdle (c.deadlineMicros micros start) turns = some none) ∧
    (c.counter64bit = false → ∀ micros,
      ((∃ turns, Wedged turns ∧ waitIdle (c.deadlineMicros micros start) turns = some none) ↔
        micros.toNat * 1000 ≤ c.exactNs (2 ^ 32 - 1) - c.exactNs (c.count start))) := by
  refine ⟨fun now => ⟨fun h => ?_, fun h micros => firesWhenDue_of micros h⟩, ?_, ?_⟩
  · refine or_iff_not_imp_left.mpr fun hlong => unwrapped_of_fires (Nat.le_of_not_lt hlong) h
  · rintro micros turns hwedged ⟨turn, hmem, hdue, hun⟩
    rw [waitIdle_wedged hwedged, if_pos ⟨turn, hmem, (firesWhenDue_of micros (.inr hun)).1 hdue⟩]
  · intro hnarrow micros
    rw [← fires_iff_left hnarrow]
    constructor
    · rintro ⟨turns, hwedged, hgives⟩
      rw [waitIdle_wedged hwedged] at hgives
      split at hgives
      · next hfires =>
        obtain ⟨turn, -, hfires⟩ := hfires
        exact ⟨turn.2, hfires⟩
      · cases hgives
    · rintro ⟨now, hfires⟩
      have hwedged : Wedged [(icrDeliveryPending, now)] := fun turn hmem =>
        List.mem_singleton.mp hmem ▸ (by decide : icrDeliveryPending &&& icrDeliveryPending ≠ 0)
      refine ⟨_, hwedged, ?_⟩
      rw [waitIdle_wedged hwedged, if_pos ⟨_, List.mem_singleton_self _, hfires⟩]

/-- A 32-bit counter of 100 ns ticks, one tick before it wraps: a second later a deadline of
10 ms has not fired, and on a wedged APIC the wait for it never ends. -/
theorem deadline_lost_at_wrap : ∃ c, Capabilities.fromBits 0x05F5E10000000000 = some c ∧
    c.elapsed 0xFFFFFFFF 9999999 = 10000000 ∧ c.passed 0xFFFFFFFF 9999999 = 1000000000 ∧
    c.deadlineMicros 10000 0xFFFFFFFF 9999999 = false ∧
    ¬c.FiresWhenDue 10000 0xFFFFFFFF 9999999 ∧
    ∀ turns, Wedged turns → waitIdle (c.deadlineMicros 10000 0xFFFFFFFF) turns = none := by
  refine ⟨⟨100000000, 1, false, 0, 0, by decide, by decide⟩, ?_, by decide +kernel, by decide +kernel,
    by decide +kernel, ?_, ?_⟩
  · rfl
  · intro h
    exact absurd (h.1 (by decide +kernel)) (by decide +kernel)
  · intro turns hwedged
    rw [waitIdle_wedged hwedged, if_neg]
    rintro ⟨turn, -, hfires⟩
    have := (Capabilities.fires_iff_left rfl).mp ⟨_, hfires⟩
    revert this
    decide +kernel

end StarOs.Arch
