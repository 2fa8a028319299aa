import StarOs.Kernel.Irq

/-! Every interrupt is acknowledged once, on the chips that hold it and no other. Nothing is in
service while no handler runs, a handler is given a vector that names what is in service, and
the counters say what has been handled. -/

namespace StarOs.Kernel.Irq

open Arch Arch.Pic Arch.Pic.Pic8259 Arch.Lapic
open Library (Run)
open Library.I8259 (Pair Chip)
open Library.I8259.Pair (Cause)
open Library.LocalApic (Apic)
open Library.Lines

namespace Source

/-- What is in service for it: on the two 8259s, and on the local APIC. -/
def inService : Source → (BitVec 8 × BitVec 8) × BitVec 256
  | .pic c => (c.serving, 0)
  | .apic v => ((0, 0), setLine 0 v)
  | .apicSpurious => ((0, 0), 0)

/-- The vector that stands for it. -/
def vector : Source → ℕ
  | .pic c => picBase + c.answered
  | .apic v => v
  | .apicSpurious => apicSpuriousVector.toNat

/-- The controller in charge can raise it. -/
def Raised (usingApic : Bool) : Source → Prop
  | .pic c => usingApic = false ∧ c.answered < 16
  | .apic v => usingApic = true ∧ Machine.Routed v
  | .apicSpurious => usingApic = true

theorem Raised.deviceVector {u : Bool} {s : Source} (h : s.Raised u) :
    32 ≤ s.vector ∧ s.vector < 256 := by
  cases s with
  | pic c =>
    have := h.2
    simp only [vector, picBase]
    omega
  | apic v =>
    have := h.2
    simp only [Machine.Routed] at this
    simp only [vector]
    omega
  | apicSpurious => decide

end Source

namespace Record

/-- A tick of the timer. -/
def isTick : Record → Bool
  | .handled (.pic (.line i)) _ _ => i == irqTimer
  | .handled (.apic v) timerVector _ => v == timerVector
  | _ => false

/-- A tick of the local APIC's timer that cut ring 3 off. -/
def isTickFromRing3 : Record → Bool
  | .handled (.apic v) timerVector fromUser => v == timerVector && fromUser
  | _ => false

/-- A line or a vector that nothing asked for. -/
def isUnexpected : Record → Bool
  | .handled (.pic (.line i)) _ _ => i != irqTimer
  | .handled (.apic v) timerVector _ => v != timerVector
  | _ => false

/-- A request that an 8259 raised and then disowned. -/
def isSpurious : Record → Bool
  | .handled (.pic c) _ _ => c.ghost
  | _ => false

/-- A request that the local APIC raised and then disowned. -/
def isApicSpurious : Record → Bool
  | .handled .apicSpurious _ _ => true
  | _ => false

end Record

/-- A counter that counts what `p` says, modulo its width. -/
def tally (b : Bool) : UInt64 := if b then 1 else 0

/-- The counters of `k'` are those of `k` with `r` counted. -/
structure Counted (k k' : Statics Pair Apic) (r : Record) : Prop where
  ticks : k'.ticks = k.ticks + tally r.isTick
  ticksFromRing3 : k'.ticksFromRing3 = k.ticksFromRing3 + tally r.isTickFromRing3
  unexpected : k'.unexpected = k.unexpected + tally r.isUnexpected
  spurious : k'.spurious = k.spurious + tally r.isSpurious
  apicSpurious : k'.apicSpurious = k.apicSpurious + tally r.isApicSpurious

section handlers

variable {k : Statics Pair Apic} {frame : Arch.TrapFrame}

/-- A withdrawn request is counted as such, and only its wire is let go. -/
theorem dispatchPic_ghost {irq : ℕ} (hv : frame.vector.toNat = picBase + irq) (hi : irq < 16)
    (hs : (k.pic.isSpurious irq).1 = true) : dispatchPic k frame = { k with
      spurious := k.spurious + 1, pic := (k.pic.isSpurious irq).2.endOfSpurious irq } := by
  have hirq : frame.vector.toNat - picBase = irq := by omega
  have hlt : irq < 256 ∧ irq < lines := ⟨by omega, hi⟩
  simp only [dispatchPic, hirq, if_pos hlt, hs, if_true]

/-- A line in service is counted by whether it is the timer's, and retired. -/
theorem dispatchPic_line {irq : ℕ} (hv : frame.vector.toNat = picBase + irq) (hi : irq < 16)
    (hs : (k.pic.isSpurious irq).1 = false) : dispatchPic k frame = { k with
      ticks := k.ticks + tally (irq == irqTimer)
      unexpected := k.unexpected + tally (irq != irqTimer)
      pic := (k.pic.isSpurious irq).2.endOfInterrupt irq } := by
  have hirq : frame.vector.toNat - picBase = irq := by omega
  have hlt : irq < 256 ∧ irq < lines := ⟨by omega, hi⟩
  simp only [dispatchPic, hirq, if_pos hlt, hs, Bool.false_eq_true, if_false]
  by_cases h : irq = irqTimer <;> simp [h, tally]

theorem dispatchPic_spec {c : Cause} (hv : frame.vector.toNat = picBase + c.answered)
    (hc : c.answered < 16)
    (hs : (k.pic.io.master.isr, k.pic.io.slave.isr) = c.serving) (t : ℕ) (u : Bool) :
    (dispatchPic k frame).pic.io.Quiet ∧ kept (dispatchPic k frame).pic.io = kept k.pic.io ∧
    (dispatchPic k frame).pic.base = k.pic.base ∧ (dispatchPic k frame).lapic = k.lapic ∧
    (dispatchPic k frame).usingApic = k.usingApic ∧
    Counted k (dispatchPic k frame) (.handled (.pic c) t u) := by
  obtain ⟨hkept, hm, hsl, hbase⟩ := @isSpurious_frame k.pic c.answered
  have hghost := isSpurious_cause hc hs
  rw [← hm, ← hsl] at hs
  have h0 (x : UInt64) : x = x + 0 := (UInt64.add_zero x).symm
  cases c with
  | line i =>
    rw [dispatchPic_line hv hc hghost]
    exact ⟨endOfInterrupt_quiet hc hs, kept_endOfInterrupt.trans hkept,
      endOfInterrupt_base.trans hbase, rfl, rfl, ⟨rfl, h0 _, rfl, h0 _, h0 _⟩⟩
  | ghostMaster =>
    rw [dispatchPic_ghost hv hc hghost]
    exact ⟨endOfSpurious_quiet rfl hs, kept_endOfSpurious.trans hkept,
      endOfSpurious_base.trans hbase, rfl, rfl, ⟨h0 _, h0 _, h0 _, rfl, h0 _⟩⟩
  | ghostSlave =>
    rw [dispatchPic_ghost hv hc hghost]
    exact ⟨endOfSpurious_quiet rfl hs, kept_endOfSpurious.trans hkept,
      endOfSpurious_base.trans hbase, rfl, rfl, ⟨h0 _, h0 _, h0 _, rfl, h0 _⟩⟩

/-- The spurious vector is counted and not acknowledged. -/
theorem dispatchApic_spurious (hv : frame.vector.toNat = apicSpuriousVector.toNat) :
    dispatchApic k frame = { k with apicSpurious := k.apicSpurious + 1 } := by
  rw [dispatchApic, hv]
  exact if_pos rfl

/-- A tick of the timer is counted, published and asks for a reschedule before it is
acknowledged. -/
theorem dispatchApic_timer (hv : frame.vector.toNat = k.timerVector)
    (hr : Machine.Routed k.timerVector) : dispatchApic k frame = { k with
      ticks := k.ticks + 1
      ticksFromRing3 := k.ticksFromRing3 + tally frame.fromUser
      clock := k.clock.map fun _ => k.ticks + 1
      needResched := true
      lapic := k.lapic.map LocalApic.endOfInterrupt } := by
  have hr' : 32 ≤ k.timerVector ∧ k.timerVector < 255 := hr
  have hne : k.timerVector ≠ apicSpuriousVector.toNat := fun h => absurd (h ▸ hr'.2) (by decide)
  rw [dispatchApic, hv, Nat.mod_eq_of_lt (by omega)]
  simp only [if_neg hne, if_true]
  cases frame.fromUser <;> simp [tally, requestResched, publishTicks]

theorem dispatchApic_other {v : ℕ} (hv : frame.vector.toNat = v) (hr : Machine.Routed v)
    (ht : v ≠ k.timerVector) : dispatchApic k frame = { k with
      unexpected := k.unexpected + 1
      lapic := k.lapic.map LocalApic.endOfInterrupt } := by
  have hr' : 32 ≤ v ∧ v < 255 := hr
  have hne : v ≠ apicSpuriousVector.toNat := fun h => absurd (h ▸ hr'.2) (by decide)
  rw [dispatchApic, hv, Nat.mod_eq_of_lt (by omega)]
  simp only [if_neg hne, if_neg ht]

theorem dispatchApic_spec {v : ℕ} (hv : frame.vector.toNat = v) (hr : Machine.Routed v) :
    (dispatchApic k frame).pic = k.pic ∧ (dispatchApic k frame).usingApic = k.usingApic ∧
    (dispatchApic k frame).lapic = k.lapic.map LocalApic.endOfInterrupt ∧
    Counted k (dispatchApic k frame) (.handled (.apic v) k.timerVector frame.fromUser) := by
  have h0 (x : UInt64) : x = x + 0 := (UInt64.add_zero x).symm
  by_cases ht : v = k.timerVector
  · subst ht
    rw [dispatchApic_timer hv hr]
    refine ⟨rfl, rfl, rfl, ⟨?_, ?_, ?_, h0 _, h0 _⟩⟩
    · simp [Record.isTick, tally]
    · simp [Record.isTickFromRing3]
    · simp [Record.isUnexpected, tally]
  · rw [dispatchApic_other hv hr ht]
    refine ⟨rfl, rfl, rfl, ⟨?_, ?_, ?_, h0 _, h0 _⟩⟩
    · simp [Record.isTick, tally, ht]
    · simp [Record.isTickFromRing3, tally, ht]
    · simp [Record.isUnexpected, tally, ht]

end handlers

namespace Machine

variable {m m' : Machine} {a : Act}

/-- What is in service on the three chips. -/
def inService (m : Machine) : (BitVec 8 × BitVec 8) × BitVec 256 :=
  ((m.irq.pic.io.master.isr, m.irq.pic.io.slave.isr),
    match m.irq.lapic with
    | some l => l.regs.isr
    | none => 0)

/-- What the handler in progress is for. -/
def source (m : Machine) : Option Source :=
  match m.phase with
  | .handling _ s => some s
  | _ => none

/-- The local APIC as `init_apic` leaves it and devices use it. -/
structure Answers (l : LocalApic Apic) : Prop where
  priority : l.regs.regs Lapic.taskPriority = 0
  enabled : l.regs.regs Lapic.spurious = spuriousEnable ||| apicSpuriousVector.zeroExtend 32
  routed : ∀ v, l.regs.irr.getLsbD v = true → Routed v

theorem Answers.spuriousVector {l : LocalApic Apic} (h : Answers l) :
    l.regs.spuriousVector = apicSpuriousVector.toNat :=
  (congrArg (BitVec.toNat · % 256) h.enabled).trans LocalApic.spurious_low

/-- A chip with the same registers, and no request that was not there. -/
theorem Answers.of_regs {l l' : LocalApic Apic} (h : Answers l) (hr : l'.regs.regs = l.regs.regs)
    (hi : ∀ v, l'.regs.irr.getLsbD v = true → l.regs.irr.getLsbD v = true ∨ Routed v) :
    Answers l' where
  priority := hr ▸ h.priority
  enabled := hr ▸ h.enabled
  routed v hv := (hi v hv).elim (h.routed v) id

/-- A requested vector is heard when nothing is in service. -/
theorem Answers.pending {l : LocalApic Apic} {v : ℕ} (h : Answers l) (hz : l.regs.isr = 0)
    (hv : l.regs.irr.getLsbD v = true) : l.regs.pending.isSome = true := by
  have hclass : l.regs.class_ = 0 := by
    rw [Apic.class_, hz, highest_zero]
    exact congrArg (fun p : BitVec 32 => max (p.toNat % 256 / 16) 0) h.priority
  have hen : l.regs.enabled = true :=
    (congrArg (BitVec.getLsbD · 8) h.enabled).trans LocalApic.spurious_enabled
  cases hh : highest l.regs.irr with
  | none =>
    rw [highest_eq_none.mp hh] at hv
    simp at hv
  | some u =>
    have hu : 32 ≤ u ∧ u < 255 := h.routed u (getLsbD_of_highest hh)
    rw [Apic.pending, hh]
    simp only [hen, hclass, Bool.true_and, decide_eq_true (show 0 < u / 16 by omega), if_true,
      Option.isSome_some]

structure Inv (m : Machine) : Prop where
  programmed : Programmed m.irq.pic.io picBase
  base : m.irq.pic.base = picBase
  answers : ∀ l, m.irq.lapic = some l → Answers l
  inCharge : m.irq.usingApic = true → m.irq.lapic ≠ none
  serving : m.inService = (m.source.map Source.inService).getD ((0, 0), 0)
  handled : ∀ frame s, m.phase = .handling frame s →
    frame.vector.toNat = s.vector ∧ s.Raised m.irq.usingApic

theorem Inv.quiet (h : m.Inv) (hs : m.source = none) : m.irq.pic.io.Quiet ∧
    ∀ l, m.irq.lapic = some l → l.regs.isr = 0 := by
  have hz := h.serving
  rw [hs] at hz
  simp only [inService, Option.map_none, Option.getD_none, Prod.mk.injEq] at hz
  refine ⟨hz.1, fun l hl => ?_⟩
  rw [hl] at hz
  exact hz.2

/-- The lines move nothing but the requests. -/
theorem Inv.setPair {p : Pair} (h : m.Inv) (hp : p.held = m.irq.pic.io.held) :
    (m.setPair p).Inv where
  programmed := h.programmed.of_held hp
  base := h.base
  answers := h.answers
  inCharge := h.inCharge
  serving := by
    simp only [Pair.held, Pair.heldBy, Prod.mk.injEq] at hp
    rw [← show m.inService = (m.setPair p).inService from
      Prod.ext (Prod.ext hp.1.2.1.symm hp.2.2.1.symm) rfl]
    exact h.serving
  handled := h.handled

theorem Inv.request {l : LocalApic Apic} {v : ℕ} (h : m.Inv) (hl : m.irq.lapic = some l)
    (hv : Routed v) : (m.setApic (l.regs.request v)).Inv where
  programmed := h.programmed
  base := h.base
  answers := by
    rintro l' hl'
    cases hl'
    refine (h.answers l hl).of_regs rfl fun u hu => ?_
    rw [Apic.request, getLsbD_setLine, Bool.or_eq_true] at hu
    obtain hu | hu := hu
    · exact .inl hu
    · have huv : v = u := by simpa using (Bool.and_eq_true_iff.mp hu).2
      exact .inr (huv ▸ hv)
  inCharge _ hn := by cases hn
  serving := by
    have hs := h.serving
    rw [inService, hl] at hs
    exact hs
  handled := h.handled

/-- The kernel's calls leave what is in service and the words of the initialisation. -/
theorem Inv.setPic {pic : Pic8259 Pair} (h : m.Inv) (hp : Programmed pic.io picBase)
    (hb : pic.base = m.irq.pic.base) (hm : pic.io.master.isr = m.irq.pic.io.master.isr)
    (hs : pic.io.slave.isr = m.irq.pic.io.slave.isr) :
    Inv { m with irq := { m.irq with pic } } where
  programmed := hp
  base := hb.trans h.base
  answers := h.answers
  inCharge := h.inCharge
  serving := by
    rw [← show m.inService = inService { m with irq := { m.irq with pic } } from
      Prod.ext (Prod.ext hm.symm hs.symm) rfl]
    exact h.serving
  handled := h.handled

/-- What the controller in charge answers names what goes into service. -/
theorem Inv.take {v : ℕ} {s : Source} {frame : Arch.TrapFrame} (h : m.Inv)
    (hp : m.phase = .noticed) (ha : m.acknowledge = some (m', v, s))
    (hv : frame.vector.toNat = v) : Inv { m' with phase := .handling frame s } := by
  obtain ⟨hq, hisr⟩ := h.quiet (by rw [source, hp])
  unfold acknowledge at ha
  cases hu : m.irq.usingApic with
  | false =>
    simp only [hu, Bool.false_eq_true, if_false, Option.some.injEq, Prod.mk.injEq] at ha
    obtain ⟨rfl, rfl, rfl⟩ := ha
    obtain ⟨hvec, hserve, hsm, hss, -, -⟩ := Pair.acknowledge_spec h.programmed.cascaded hq
    have hlt := Pair.cause_answered_lt (p := m.irq.pic.io)
    exact {
      programmed := ⟨hsm.trans h.programmed.master, hss.trans h.programmed.slave⟩
      base := h.base
      answers := h.answers
      inCharge := h.inCharge
      serving := by
        refine Prod.ext hserve ?_
        show (match m.irq.lapic with | some l => l.regs.isr | none => 0) = 0
        cases hl : m.irq.lapic with
        | none => rfl
        | some l => exact hisr l hl
      handled := by
        rintro frame' s' ⟨⟩
        refine ⟨?_, hu, hlt⟩
        rw [hv, hvec, h.programmed.vectorOf (by decide) hlt]
        rfl }
  | true =>
    simp only [hu, if_true, Option.map_eq_some_iff, Prod.mk.injEq] at ha
    obtain ⟨l, hl, rfl, rfl, rfl⟩ := ha
    have hans := h.answers l hl
    have hzero := Apic.acknowledge_isr (hisr l hl)
    exact {
      programmed := h.programmed
      base := h.base
      answers := by
        rintro l' hl'
        cases hl'
        exact hans.of_regs Apic.acknowledge_regs fun u hu => .inl (Apic.acknowledge_irr hu)
      inCharge := fun _ hn => by cases hn
      serving := by
        show ((m.irq.pic.io.master.isr, m.irq.pic.io.slave.isr), l.regs.acknowledge.1.isr) = _
        rw [hzero, hq.1, hq.2]
        cases l.regs.pending <;> rfl
      handled := by
        rintro frame' s' ⟨⟩
        rw [hv, Apic.acknowledge]
        cases hpend : l.regs.pending with
        | none => exact ⟨hans.spuriousVector, hu⟩
        | some v => exact ⟨rfl, hu, hans.routed v (Apic.of_pending hpend).2.1⟩ }

/-- Once everything is retired the machine is as it was before the interrupt. -/
theorem Inv.retired {k : Statics Pair Apic} (h : m.Inv) (hk : kept k.pic.io = kept m.irq.pic.io)
    (hb : k.pic.base = m.irq.pic.base) (hq : k.pic.io.Quiet)
    (hl : ∀ l, k.lapic = some l → Answers l ∧ l.regs.isr = 0)
    (hu : k.usingApic = true → k.lapic ≠ none) (log : List Record) : Inv ⟨k, .idle, log⟩ where
  programmed := h.programmed.of_kept hk
  base := hb.trans h.base
  answers l hl' := (hl l hl').1
  inCharge := hu
  serving := by
    refine Prod.ext (Prod.ext hq.1 hq.2) ?_
    show (match k.lapic with | some l => l.regs.isr | none => 0) = 0
    cases hk : k.lapic with
    | none => rfl
    | some l => exact (hl l hk).2
  handled _ _ hp := by cases hp

/-- A handler is always given a device's vector, retires what it is for and counts it. -/
theorem Inv.onTrap {s : Source} {frame : Arch.TrapFrame} (h : m.Inv)
    (hp : m.phase = .handling frame s) :
    ∃ k, onTrap m.irq frame = some k ∧ (∀ log, Inv ⟨k, .idle, log⟩) ∧
      Counted m.irq k (.handled s m.irq.timerVector frame.fromUser) ∧
      kept k.pic.io = kept m.irq.pic.io ∧ k.usingApic = m.irq.usingApic := by
  obtain ⟨hvec, hraised⟩ := h.handled frame s hp
  have hdev : isDeviceVector frame.vector = true :=
    decide_eq_true (hvec ▸ hraised.deviceVector)
  have hserve : m.inService = s.inService := h.serving.trans (by rw [source, hp]; rfl)
  have hpair : (m.irq.pic.io.master.isr, m.irq.pic.io.slave.isr) = s.inService.1 :=
    congrArg Prod.fst hserve
  have hapic (l : LocalApic Apic) (hl : m.irq.lapic = some l) : l.regs.isr = s.inService.2 := by
    have hsnd : _ = s.inService.2 := congrArg Prod.snd hserve
    rw [inService, hl] at hsnd
    exact hsnd
  refine ⟨dispatch m.irq frame, if_pos hdev, ?_⟩
  cases s with
  | pic c =>
    obtain ⟨hu, hlt⟩ := hraised
    obtain ⟨hq, hkept, hbase, hlapic, husing, hcount⟩ :=
      dispatchPic_spec hvec hlt hpair m.irq.timerVector frame.fromUser
    have hd : dispatch m.irq frame = dispatchPic m.irq frame := by rw [dispatch, hu]; rfl
    rw [hd]
    refine ⟨h.retired hkept hbase hq (fun l hl => ?_) ?_, hcount, hkept, husing⟩
    · rw [hlapic] at hl
      exact ⟨h.answers l hl, hapic l hl⟩
    · rw [husing, hlapic]
      exact h.inCharge
  | apic v =>
    obtain ⟨hu, hr⟩ := hraised
    obtain ⟨hpic, husing, hlapic, hcount⟩ := dispatchApic_spec (k := m.irq) hvec hr
    have hd : dispatch m.irq frame = dispatchApic m.irq frame := by rw [dispatch, hu]; rfl
    have hv : v < 256 := hr.2.trans (by decide)
    rw [hd]
    refine ⟨h.retired (by rw [hpic]) (by rw [hpic]) ?_ (fun l hl => ?_) ?_, hcount, by rw [hpic], husing⟩
    · rw [hpic]
      exact Prod.mk.inj hpair
    · rw [hlapic, Option.map_eq_some_iff] at hl
      obtain ⟨l₀, hl₀, rfl⟩ := hl
      obtain ⟨hisr, hregs, hirr⟩ := @Apic.write_eoi_single _ _ 0 hv (hapic l₀ hl₀)
      exact ⟨(h.answers l₀ hl₀).of_regs hregs fun u hb =>
        .inl ((congrArg (BitVec.getLsbD · u) hirr).symm.trans hb), hisr⟩
    · rw [husing, hlapic]
      simpa using h.inCharge
  | apicSpurious =>
    have hu : m.irq.usingApic = true := hraised
    have hd : dispatch m.irq frame = dispatchApic m.irq frame := by rw [dispatch, hu]; rfl
    have h0 (x : UInt64) : x = x + 0 := (UInt64.add_zero x).symm
    rw [hd, dispatchApic_spurious hvec]
    exact ⟨h.retired rfl rfl (Prod.mk.inj hpair) (fun l hl => ⟨h.answers l hl, hapic l hl⟩)
      h.inCharge, ⟨h0 _, h0 _, h0 _, h0 _, rfl⟩, rfl, rfl⟩

/-- A chip with nothing in service comes into the machine. -/
theorem Inv.setLapic {l : LocalApic Apic} {u : Bool} (h : m.Inv) (hp : m.phase = .idle)
    (hl : Answers l) (hz : l.regs.isr = 0) :
    Inv { m with irq := { m.irq with lapic := some l, usingApic := u } } where
  programmed := h.programmed
  base := h.base
  answers := by
    rintro l' ⟨⟩
    exact hl
  inCharge _ hn := by cases hn
  serving := by
    obtain ⟨hq, -⟩ := h.quiet (by rw [source, hp])
    simp only [inService, source, hp, hq.1, hq.2, hz]
    rfl
  handled frame s hf := by
    have hf' : m.phase = .handling frame s := hf
    rw [hp] at hf'
    cases hf'

theorem Inv.maskAll (h : m.Inv) :
    Inv { m with irq := { m.irq with pic := m.irq.pic.maskAll } } :=
  have hf := setMasks_frame (m := BitVec.allOnes 16) h.programmed
  h.setPic h.programmed.setMasks hf.1 hf.2.1 hf.2.2.1

theorem Inv.initApic {regs : Except String Apic} {ioApic : Option (Except String Unit)}
    (h : m.Inv) (hp : m.phase = .idle)
    (hr : ∀ a, regs = .ok a → a.isr = 0 ∧ ∀ v, a.irr.getLsbD v = true → Routed v) :
    Inv { m with irq := (Irq.initApic m.irq regs ioApic).1 } := by
  have hmasked := h.maskAll
  cases regs with
  | error e => exact hmasked
  | ok a =>
    obtain ⟨hzero, hrouted⟩ := hr a rfl
    have hen := LocalApic.isEnabled_enable (a := a) (b := apicSpuriousVector)
    obtain ⟨r, hpri, hsp, heq⟩ := LocalApic.enable_spec (a := a) (b := apicSpuriousVector)
    rw [heq] at hen
    have hans : Answers ⟨{ a with regs := r }⟩ := ⟨hpri, hsp, hrouted⟩
    have hset (u : Bool) := hmasked.setLapic (u := u) hp hans hzero
    unfold Irq.initApic
    simp only [heq, hen, Bool.not_true, Bool.false_eq_true, if_false]
    match ioApic with
    | none => exact hset _
    | some (.error e) => exact hset _
    | some (.ok u) => exact hset true

theorem Inv.step (h : m.Inv) (hs : Step m a m') : m'.Inv := by
  cases hs with
  | raise hi hw => exact h.setPair Pair.raise_held
  | lower hi hw => exact h.setPair Pair.lower_held
  | settle => exact h.setPair Pair.settle_held
  | request hv hl => exact h.request hl hv
  | notice hp ha =>
    have hsrc : m.source = none := by rw [source, hp]
    refine ⟨h.programmed, h.base, h.answers, h.inCharge, ?_, fun _ _ hf => by cases hf⟩
    have hz := h.serving
    rw [hsrc] at hz
    exact hz
  | take hp ha hv => exact h.take hp ha hv
  | handle hp hk =>
    obtain ⟨k, hk', hinv, -, -, -⟩ := h.onTrap hp
    cases hk.symm.trans hk'
    exact hinv _
  | @unmask i hp hu hi =>
    obtain ⟨hprog, hbase, hm, hs, -, -⟩ := unmask_frame (i := i) h.programmed
    exact h.setPic hprog hbase hm hs
  | @mask i hp hu hi =>
    obtain ⟨hprog, hbase, hm, hs, -, -⟩ := mask_frame (i := i) h.programmed
    exact h.setPic hprog hbase hm hs
  | initApic hp hl hr => exact h.initApic hp hr
  | setTimerVector hp => exact ⟨h.programmed, h.base, h.answers, h.inCharge, h.serving, h.handled⟩
  | resetTicks hp => exact ⟨h.programmed, h.base, h.answers, h.inCharge, h.serving, h.handled⟩
  | openClock hp => exact ⟨h.programmed, h.base, h.answers, h.inCharge, h.serving, h.handled⟩

end Machine

theorem Boot.inv {m : Machine} (h : Boot m) : m.Inv := by
  obtain ⟨p, hq, hinit, hp, -⟩ := h
  have hpic : (⟨p, 0⟩ : Pic8259 Pair).remap picBase = some ⟨remapped p picBase, picBase⟩ :=
    remap_pair (by decide) (by decide)
  have hirq : m.irq = { start p with pic := ⟨remapped p picBase, picBase⟩ } := by
    have hmap : (((start p : Statics Pair Apic).pic.remap picBase).map fun pic =>
        { (start p : Statics Pair Apic) with pic }) = some m.irq := hinit
    rw [start, Pic8259.new, hpic, Option.map_some, Option.some.injEq] at hmap
    exact hmap.symm
  have hsrc : m.source = none := by rw [Machine.source, hp]
  exact {
    programmed := hirq ▸ programmed_remapped
    base := by rw [hirq]
    answers := by rw [hirq]; rintro l ⟨⟩
    inCharge := by rw [hirq]; rintro ⟨⟩
    serving := by
      rw [hsrc, Machine.inService, hirq]
      exact Prod.ext (Prod.ext hq.1 hq.2) rfl
    handled := by rw [hp]; rintro _ _ ⟨⟩ }

end StarOs.Kernel.Irq
