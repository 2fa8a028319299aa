import StarOs.Kernel.Acknowledge

/-! What holds along every run of the interrupt path from the firmware's hand-off, through the
8259s and past the change to the local APIC. -/

namespace StarOs.Kernel.Irq

open Arch Arch.Pic Arch.Pic.Pic8259 Arch.Lapic
open Library (Run)
open Library.I8259 (Pair Chip)
open Library.I8259.Pair (Cause)
open Library.LocalApic (Apic)

variable {m m₀ : Machine} {a : Act} {S : Act → Prop}

theorem inv_run (hb : Boot m₀) (h : Run Step S m₀ m) : m.Inv :=
  h.invariant Machine.Inv hb.inv fun _ _ _ hi _ hs => hi.step hs

/-- What `selftest` asks of the kernel: no line but the timer's is opened, and the 8259s stay in
charge. -/
def OnlyTimer : Act → Prop
  | .unmask i => i = irqTimer
  | .initApic => False
  | _ => True

section sample

/-- A firmware that left the timer requested, and the pair on vectors 8 and 0x70. -/
def firmware : Pair where
  master := ⟨.ready, 0x11, 0x08, 4, 1, 0x01, 0, 0xB8, false⟩
  slave := ⟨.ready, 0x11, 0x70, 2, 1, 0, 0, 0x8F, false⟩

def booted : Machine :=
  ⟨{ (start firmware) with pic := ⟨remapped firmware picBase, picBase⟩ }, .idle, []⟩

theorem booted_boot : Boot booted :=
  ⟨firmware, ⟨rfl, rfl⟩, congrArg (Option.map _) (remap_pair (by decide) (by decide)), rfl, rfl⟩

def opened : Machine :=
  { booted with irq := { booted.irq with pic := booted.irq.pic.unmask irqTimer } }

def raised : Machine := opened.setPair (opened.irq.pic.io.raise irqTimer)

theorem run_raised : Run Step OnlyTimer booted raised := by
  have h₁ : Step booted (.unmask irqTimer) opened := .unmask rfl rfl (by decide)
  have h₂ : Step opened (.raise irqTimer) raised := .raise (by decide) (by decide)
  have ha : OnlyTimer (.unmask irqTimer) := rfl
  exact (Run.single ha h₁).tail (a := .raise irqTimer) trivial h₂

def tickFrame : Arch.TrapFrame :=
  ⟨0, 0, 0, 0, 0, 0, 0, 0, 0, 0, 0, 0, 0, 0, 0, 32, 0, 0, 8, 0x202, 0, 0x10⟩

def noticed : Machine := { raised with phase := .noticed }

def ticking : Machine :=
  { noticed.setPair noticed.irq.pic.io.acknowledge.1 with
    phase := .handling tickFrame (.pic (.line irqTimer)) }

theorem run_ticking : Run Step OnlyTimer booted ticking := by
  have hc : noticed.irq.pic.io.cause = .line irqTimer := by decide
  have hv : noticed.irq.pic.io.acknowledge.2.toNat = 32 := by decide
  have ha : noticed.acknowledge =
      some (noticed.setPair noticed.irq.pic.io.acknowledge.1, 32, .pic (.line irqTimer)) := by
    rw [← hc, ← hv]
    rfl
  have h₁ : Step raised .notice noticed := .notice rfl (by decide)
  have h₂ : Step noticed .take ticking := .take rfl ha rfl
  have hrun := run_raised.tail (a := Act.notice) trivial h₁
  exact hrun.tail (a := Act.take) trivial h₂

def ticked : Machine :=
  ⟨dispatch ticking.irq tickFrame, .idle,
    [.handled (.pic (.line irqTimer)) ticking.irq.timerVector tickFrame.fromUser]⟩

theorem run_ticked : Run Step OnlyTimer booted ticked := by
  have h : Step ticking .handle ticked := .handle rfl rfl
  exact run_ticking.tail (a := .handle) trivial h

end sample

section retired

/-- While no handler runs nothing is in service on any chip, so that every line and vector
requested of the controller in charge is heard, unless it or its wire is masked. -/
theorem all_retired (hb : Boot m₀) (h : Run Step S m₀ m) (hs : m.source = none) :
    m.irq.pic.io.Quiet ∧ (∀ l, m.irq.lapic = some l → l.regs.isr = 0) ∧
    (m.irq.usingApic = false → ∀ i < 16, i ≠ cascadeIrq → isRequested m.irq.pic.io i = true →
      isMasked m.irq.pic.io i = false → (8 ≤ i → isMasked m.irq.pic.io cascadeIrq = false) →
      (m.setPair m.irq.pic.io.settle).asks = true) ∧
    (m.irq.usingApic = true → ∃ l, m.irq.lapic = some l ∧
      ∀ v, l.regs.irr.getLsbD v = true → m.asks = true) := by
  have hi := inv_run hb h
  obtain ⟨hq, hz⟩ := hi.quiet hs
  refine ⟨hq, hz, fun hu i hlt hw hr hm hcas => ?_, fun hu => ?_⟩
  · rw [Machine.asks, show (m.setPair m.irq.pic.io.settle).irq.usingApic = false from hu]
    exact settle_int hi.programmed hq hlt hw hr hm hcas
  · obtain ⟨l, hl⟩ := Option.ne_none_iff_exists'.mp (hi.inCharge hu)
    refine ⟨l, hl, fun v hv => ?_⟩
    rw [Machine.asks, hu, hl]
    exact (hi.answers l hl).pending (hz l hl) hv

/-- Once its line is open the timer is heard. -/
theorem all_retired_timer : (raised.setPair raised.irq.pic.io.settle).asks = true :=
  (all_retired booted_boot run_raised rfl).2.2.1 rfl irqTimer (by decide) (by decide) (by decide)
    (by decide) (fun h => absurd h (by decide))

/-- A handler is given a device's vector, never an exception's, and it names what is in
service; and the handler retires that, leaving every mask as it was. -/
theorem handler_named {frame : Arch.TrapFrame} {s : Source} (hb : Boot m₀) (h : Run Step S m₀ m)
    (hp : m.phase = .handling frame s) :
    32 ≤ frame.vector.toNat ∧ frame.vector.toNat < 256 ∧ frame.vector.toNat = s.vector ∧
    m.inService = s.inService ∧
    ∃ k, onTrap m.irq frame = some k ∧ k.pic.io.Quiet ∧
      (∀ l, k.lapic = some l → l.regs.isr = 0) ∧
      ∀ i, isMasked k.pic.io i = isMasked m.irq.pic.io i := by
  have hi := inv_run hb h
  obtain ⟨hvec, hraised⟩ := hi.handled frame s hp
  obtain ⟨k, hk, hinv, -, hkept, -⟩ := hi.onTrap hp
  obtain ⟨hq, hz⟩ := (hinv []).quiet rfl
  refine ⟨hvec ▸ hraised.deviceVector.1, hvec ▸ hraised.deviceVector.2, hvec,
    hi.serving.trans (by rw [Machine.source, hp]; rfl), k, hk, hq, hz, fun i => ?_⟩
  simp only [kept, Prod.mk.injEq] at hkept
  rw [isMasked, isMasked, hkept.1.2.2, hkept.2.2.2]

theorem handler_named_timer : ∃ k, onTrap ticking.irq tickFrame = some k ∧ k.pic.io.Quiet := by
  obtain ⟨-, -, -, -, k, hk, hq, -⟩ := handler_named booted_boot run_ticking rfl
  exact ⟨k, hk, hq⟩

end retired

section counters

/-- The records of one kind, as a counter of 64 bits counts them. -/
def count (p : Record → Bool) (log : List Record) : UInt64 := UInt64.ofNat (log.countP p)

theorem count_cons {p : Record → Bool} {r : Record} {log : List Record} :
    count p (r :: log) = count p log + tally (p r) := by
  rw [count, count, List.countP_cons, UInt64.ofNat_add]
  cases p r <;> rfl

/-- The records since the ticks were last set to 0. -/
def sinceReset (log : List Record) : List Record := log.takeWhile (· != .reset)

/-- What the counters hold. -/
structure Tallied (m : Machine) : Prop where
  ticks : m.irq.ticks = count Record.isTick (sinceReset m.log)
  ticksFromRing3 : m.irq.ticksFromRing3 = count Record.isTickFromRing3 m.log
  unexpected : m.irq.unexpected = count Record.isUnexpected m.log
  spurious : m.irq.spurious = count Record.isSpurious m.log
  apicSpurious : m.irq.apicSpurious = count Record.isApicSpurious m.log

theorem Tallied.handled {k : Statics Pair Apic} {s : Source} {t : ℕ} {u : Bool} {phase : Phase}
    (h : Tallied m) (hc : Counted m.irq k (.handled s t u)) :
    Tallied ⟨k, phase, .handled s t u :: m.log⟩ where
  ticks := by
    have hs : sinceReset (.handled s t u :: m.log) = .handled s t u :: sinceReset m.log := rfl
    rw [hc.ticks, h.ticks, hs, count_cons]
  ticksFromRing3 := by rw [hc.ticksFromRing3, h.ticksFromRing3, count_cons]
  unexpected := by rw [hc.unexpected, h.unexpected, count_cons]
  spurious := by rw [hc.spurious, h.spurious, count_cons]
  apicSpurious := by rw [hc.apicSpurious, h.apicSpurious, count_cons]

theorem Tallied.reset (h : Tallied m) :
    Tallied { m with irq := { m.irq with ticks := 0 }, log := .reset :: m.log } where
  ticks := rfl
  ticksFromRing3 := h.ticksFromRing3.trans (count_cons.trans (UInt64.add_zero _)).symm
  unexpected := h.unexpected.trans (count_cons.trans (UInt64.add_zero _)).symm
  spurious := h.spurious.trans (count_cons.trans (UInt64.add_zero _)).symm
  apicSpurious := h.apicSpurious.trans (count_cons.trans (UInt64.add_zero _)).symm

/-- The calls of the kernel but one leave the counters alone. -/
theorem Tallied.of_counters {k : Statics Pair Apic} {phase : Phase} (h : Tallied m)
    (ht : k.ticks = m.irq.ticks) (hr : k.ticksFromRing3 = m.irq.ticksFromRing3)
    (hu : k.unexpected = m.irq.unexpected) (hs : k.spurious = m.irq.spurious)
    (ha : k.apicSpurious = m.irq.apicSpurious) : Tallied ⟨k, phase, m.log⟩ :=
  ⟨ht.trans h.ticks, hr.trans h.ticksFromRing3, hu.trans h.unexpected, hs.trans h.spurious,
    ha.trans h.apicSpurious⟩

theorem Tallied.initApic {regs : Except String Apic} {ioApic : Option (Except String Unit)}
    (h : Tallied m) : Tallied { m with irq := (Irq.initApic m.irq regs ioApic).1 } := by
  unfold Irq.initApic
  cases regs with
  | error e => exact h.of_counters rfl rfl rfl rfl rfl
  | ok a =>
    dsimp only
    split
    · exact h.of_counters rfl rfl rfl rfl rfl
    · match ioApic with
      | none => exact h.of_counters rfl rfl rfl rfl rfl
      | some (.error e) => exact h.of_counters rfl rfl rfl rfl rfl
      | some (.ok u) => exact h.of_counters rfl rfl rfl rfl rfl

theorem acknowledge_frame {m' : Machine} {v : ℕ} {s : Source}
    (h : m.acknowledge = some (m', v, s)) : m'.log = m.log ∧ m'.irq.ticks = m.irq.ticks ∧
      m'.irq.ticksFromRing3 = m.irq.ticksFromRing3 ∧ m'.irq.unexpected = m.irq.unexpected ∧
      m'.irq.spurious = m.irq.spurious ∧ m'.irq.apicSpurious = m.irq.apicSpurious := by
  unfold Machine.acknowledge at h
  split at h
  · simp only [Option.map_eq_some_iff, Prod.mk.injEq] at h
    obtain ⟨l, -, rfl, -, -⟩ := h
    exact ⟨rfl, rfl, rfl, rfl, rfl, rfl⟩
  · simp only [Option.some.injEq, Prod.mk.injEq] at h
    obtain ⟨rfl, -, -⟩ := h
    exact ⟨rfl, rfl, rfl, rfl, rfl, rfl⟩

theorem Tallied.step {m' : Machine} (h : Tallied m) (hi : m.Inv) (hs : Step m a m') :
    Tallied m' := by
  cases hs with
  | @take m₁ v s frame hp ha hv =>
    obtain ⟨hlog, ht, hr, hu, hsp, hap⟩ := acknowledge_frame ha
    have hm : Tallied ⟨m₁.irq, .handling frame s, m.log⟩ := h.of_counters ht hr hu hsp hap
    rw [← hlog] at hm
    exact hm
  | @handle frame s k hp hk =>
    obtain ⟨k', hk', -, hcount, -, -⟩ := hi.onTrap hp
    cases hk.symm.trans hk'
    exact h.handled hcount
  | initApic hp hl hr => exact h.initApic
  | resetTicks hp => exact h.reset
  | raise hi hw => exact h.of_counters rfl rfl rfl rfl rfl
  | lower hi hw => exact h.of_counters rfl rfl rfl rfl rfl
  | settle => exact h.of_counters rfl rfl rfl rfl rfl
  | request hv hl => exact h.of_counters rfl rfl rfl rfl rfl
  | notice hp ha => exact h.of_counters rfl rfl rfl rfl rfl
  | unmask hp hu hi => exact h.of_counters rfl rfl rfl rfl rfl
  | mask hp hu hi => exact h.of_counters rfl rfl rfl rfl rfl
  | setTimerVector hp => exact h.of_counters rfl rfl rfl rfl rfl
  | openClock hp => exact h.of_counters rfl rfl rfl rfl rfl

/-- A record of an interrupt, not of a store. -/
def Record.isHandled : Record → Bool
  | .handled _ _ _ => true
  | .reset => false

theorem headings (log : List Record) : log.countP Record.isHandled =
    log.countP Record.isTick + log.countP Record.isUnexpected + log.countP Record.isSpurious +
      log.countP Record.isApicSpurious := by
  have hone (r : Record) : r.isHandled.toNat =
      r.isTick.toNat + r.isUnexpected.toNat + r.isSpurious.toNat + r.isApicSpurious.toNat := by
    cases r with
    | reset => rfl
    | handled s t u =>
      cases s with
      | apicSpurious => rfl
      | apic v =>
        show 1 = (v == t).toNat + (!(v == t)).toNat + 0 + 0
        cases v == t <;> rfl
      | pic c =>
        cases c with
        | line i =>
          show 1 = (i == irqTimer).toNat + (!(i == irqTimer)).toNat + 0 + 0
          cases i == irqTimer <;> rfl
        | ghostMaster => rfl
        | ghostSlave => rfl
  induction log with
  | nil => rfl
  | cons r log ih =>
    have hb (b : Bool) : (if b = true then 1 else 0) = b.toNat := by cases b <;> rfl
    simp only [List.countP_cons, ih, hb, hone r]
    omega

theorem Boot.tallied (h : Boot m) : Tallied m := by
  obtain ⟨p, -, hinit, -, hlog⟩ := h
  obtain ⟨pic, -, hirq⟩ : ∃ pic, (start p : Statics Pair Apic).pic.remap picBase = some pic ∧
      { (start p : Statics Pair Apic) with pic } = m.irq := Option.map_eq_some_iff.mp hinit
  constructor <;> rw [← hirq, hlog] <;> rfl

/-- The counters say what has been handled: the ticks since they were last set to 0, and of
every other kind all there have been; and each interrupt stands under exactly one heading. -/
theorem all_counted (hb : Boot m₀) (h : Run Step S m₀ m) :
    m.irq.ticks = count Record.isTick (sinceReset m.log) ∧
    m.irq.ticksFromRing3 = count Record.isTickFromRing3 m.log ∧
    m.irq.unexpected = count Record.isUnexpected m.log ∧
    m.irq.spurious = count Record.isSpurious m.log ∧
    m.irq.apicSpurious = count Record.isApicSpurious m.log ∧
    m.log.countP Record.isHandled = m.log.countP Record.isTick +
      m.log.countP Record.isUnexpected + m.log.countP Record.isSpurious +
      m.log.countP Record.isApicSpurious := by
  have ht : m.Inv ∧ Tallied m := h.invariant (fun m => m.Inv ∧ Tallied m) ⟨hb.inv, hb.tallied⟩
    fun _ _ _ hi _ hs => ⟨hi.1.step hs, hi.2.step hi.1 hs⟩
  exact ⟨ht.2.ticks, ht.2.ticksFromRing3, ht.2.unexpected, ht.2.spurious, ht.2.apicSpurious,
    headings m.log⟩

theorem all_counted_timer : ticked.irq.ticks = 1 ∧ ticked.irq.unexpected = 0 := by
  obtain ⟨ht, -, hu, -⟩ := all_counted booted_boot run_ticked
  exact ⟨ht, hu⟩

end counters

section timer

/-- The timer's line, or a request that the master disowned. -/
def Expected (s : Source) : Prop := s = .pic (.line irqTimer) ∨ s = .pic .ghostMaster

structure Timed (m : Machine) : Prop where
  inv : m.Inv
  usingApic : m.irq.usingApic = false
  masked : ∀ k < 16, k ≠ irqTimer → isMasked m.irq.pic.io k = true
  source : ∀ s, m.source = some s → Expected s
  log : ∀ s t u, .handled s t u ∈ m.log → Expected s

/-- With every other line masked no other is answered. -/
theorem expected_cause {p : Pair} (h : ∀ k < 16, k ≠ irqTimer → isMasked p k = true) :
    Expected (.pic p.cause) := by
  have hwire : p.master.imr.getLsbD Library.I8259.wire = true := h 2 (by decide) (by decide)
  cases hc : p.cause with
  | line i =>
    obtain ⟨hi, -, hm⟩ | ⟨-, -, -, hm⟩ := Pair.cause_line hc
    · by_cases h0 : i = irqTimer
      · exact .inl (by rw [h0])
      · have := h i (by omega) h0
        rw [isMasked, if_pos hi, hm] at this
        cases this
    · rw [hwire] at hm
      cases hm
  | ghostMaster => exact .inr rfl
  | ghostSlave =>
    rw [Pair.cause_ghostSlave hc] at hwire
    cases hwire

theorem isMasked_congr {p q : Pair} (hm : q.master.imr = p.master.imr)
    (hs : q.slave.imr = p.slave.imr) (k : ℕ) : isMasked q k = isMasked p k := by
  rw [isMasked, isMasked, hm, hs]

/-- A step that moves neither the masks nor the handler. -/
theorem Timed.of_masks {k : Statics Pair Apic} (h : Timed m) (hi : Machine.Inv ⟨k, m.phase, m.log⟩)
    (hu : k.usingApic = m.irq.usingApic)
    (hm : ∀ i < 16, isMasked m.irq.pic.io i = true → isMasked k.pic.io i = true) :
    Timed ⟨k, m.phase, m.log⟩ :=
  ⟨hi, hu.trans h.usingApic, fun i hi hne => hm i hi (h.masked i hi hne), h.source, h.log⟩

theorem Timed.setPair {p : Pair} (h : Timed m) (hp : p.held = m.irq.pic.io.held) :
    Timed (m.setPair p) :=
  h.of_masks (h.inv.setPair hp) rfl fun i _ hi =>
    (isMasked_congr (congrArg (·.1.2.2) hp) (congrArg (·.2.2.2) hp) i).trans hi

theorem Timed.step {m' : Machine} (h : Timed m) (ha : OnlyTimer a) (hs : Step m a m') :
    Timed m' := by
  have hi := h.inv.step hs
  cases hs with
  | raise hi hw => exact h.setPair Pair.raise_held
  | lower hi hw => exact h.setPair Pair.lower_held
  | settle => exact h.setPair Pair.settle_held
  | request hv hl => exact h.of_masks hi rfl fun _ _ hm => hm
  | notice hp hask =>
    exact ⟨hi, h.usingApic, h.masked, fun s hs => (by cases hs), h.log⟩
  | @take m₁ v s frame hp hack hv =>
    obtain ⟨hq, -⟩ := h.inv.quiet (by rw [Machine.source, hp])
    obtain ⟨-, -, -, -, hm, hs⟩ := Pair.acknowledge_spec h.inv.programmed.cascaded hq
    simp only [Machine.acknowledge, h.usingApic, Bool.false_eq_true, if_false, Option.some.injEq,
      Prod.mk.injEq] at hack
    obtain ⟨rfl, -, rfl⟩ := hack
    refine ⟨hi, h.usingApic, fun k hk hne => (isMasked_congr hm hs k).trans (h.masked k hk hne),
      ?_, h.log⟩
    rintro s ⟨⟩
    exact expected_cause h.masked
  | @handle frame s k hp hk =>
    obtain ⟨k', hk', -, -, hkept, hu⟩ := h.inv.onTrap hp
    cases hk.symm.trans hk'
    simp only [kept, Prod.mk.injEq] at hkept
    refine ⟨hi, hu.trans h.usingApic, fun i hi hne =>
      (isMasked_congr hkept.1.2.2 hkept.2.2.2 i).trans (h.masked i hi hne),
      fun s hs => (by cases hs), fun s' t u hmem => ?_⟩
    obtain heq | hmem := List.mem_cons.mp hmem
    · cases heq
      exact h.source s (by rw [Machine.source, hp])
    · exact h.log s' t u hmem
  | @unmask i hp hu hlt =>
    have h0 : i = irqTimer := ha
    subst h0
    refine ⟨hi, h.usingApic, fun k hk hne => ?_, h.source, h.log⟩
    rw [isMasked_unmask h.inv.programmed hk, h.masked k hk hne]
    have hne' : ¬k = 0 := hne
    simp [hne', irqTimer]
  | @mask i hp hu hlt =>
    refine h.of_masks hi rfl fun k hk hm => ?_
    rw [isMasked_mask h.inv.programmed hk, hm, Bool.true_or]
  | initApic hp hl hr => exact ha.elim
  | setTimerVector hp => exact h.of_masks hi rfl fun _ _ hm => hm
  | resetTicks hp =>
    refine ⟨hi, h.usingApic, h.masked, h.source, fun s t u hmem => h.log s t u ?_⟩
    simpa using hmem
  | openClock hp => exact h.of_masks hi rfl fun _ _ hm => hm

theorem Boot.timed (h : Boot m) : Timed m := by
  have hi := h.inv
  obtain ⟨p, -, hinit, hp, hlog⟩ := h
  have hpic : (⟨p, 0⟩ : Pic8259 Pair).remap picBase = some ⟨remapped p picBase, picBase⟩ :=
    remap_pair (by decide) (by decide)
  obtain ⟨pic, hremap, hirq⟩ : ∃ pic, (start p : Statics Pair Apic).pic.remap picBase = some pic ∧
      { (start p : Statics Pair Apic) with pic } = m.irq := Option.map_eq_some_iff.mp hinit
  rw [start, Pic8259.new, hpic, Option.some.injEq] at hremap
  subst hremap
  refine ⟨hi, hirq ▸ rfl, fun k hk _ => ?_, fun s hs => ?_, fun s t u hmem => ?_⟩
  · rw [← hirq]
    exact isMasked_remapped hk
  · rw [Machine.source, hp] at hs
    cases hs
  · rw [hlog] at hmem
    cases hmem

/-- While only the timer's line is open nothing unexpected arrives: the timer's line, or a
request the master disowned. -/
theorem only_timer (hb : Boot m₀) (h : Run Step OnlyTimer m₀ m) : m.irq.unexpected = 0 ∧
    ∀ frame s, m.phase = .handling frame s → frame.vector.toNat = 32 ∨ frame.vector.toNat = 39 := by
  have ht : Timed m := h.invariant Timed hb.timed fun _ _ _ hi ha hs => hi.step ha hs
  constructor
  · have hz : m.log.countP Record.isUnexpected = 0 := by
      rw [List.countP_eq_zero]
      rintro (⟨s, t, u⟩ | -) hmem
      · obtain rfl | rfl := ht.log s t u hmem <;> exact Bool.false_ne_true
      · decide
    rw [(all_counted hb h).2.2.1, count, hz]
    rfl
  · intro frame s hp
    rw [(ht.inv.handled frame s hp).1]
    obtain rfl | rfl := ht.source s (by rw [Machine.source, hp])
    · exact .inl rfl
    · exact .inr rfl

theorem only_timer_ticked : ticked.irq.unexpected = 0 :=
  (only_timer booted_boot run_ticked).1

end timer

end StarOs.Kernel.Irq
