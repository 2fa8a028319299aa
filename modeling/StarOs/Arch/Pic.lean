import StarOs.Library.I8259

/-! The driver of the two 8259s: the words that move them off the processor's exception vectors,
their masks, and the acknowledgement of an interrupt, real or withdrawn. The driver is written
against a port space; the theorems are about the port space in which the chips answer. -/

namespace StarOs.Arch.Pic

open Library.I8259

class PortIo (P : Type) where
  write : P → BitVec 16 → BitVec 8 → P
  read : P → BitVec 16 → P × BitVec 8
  wait : P → P

def masterCommand : BitVec 16 := 0x20
def masterData : BitVec 16 := 0x21
def slaveCommand : BitVec 16 := 0xA0
def slaveData : BitVec 16 := 0xA1

def cascadeIrq : ℕ := 2

def icw1Init : BitVec 8 := 0x11
def icw3Master : BitVec 8 := 1#8 <<< cascadeIrq
def icw3Slave : BitVec 8 := BitVec.ofNat 8 cascadeIrq
def icw4Mode8086 : BitVec 8 := 0x01
def ocw2Eoi : BitVec 8 := 0x20
def ocw3ReadIsr : BitVec 8 := 0x0B

def lines : ℕ := 16
def spuriousMaster : ℕ := 7
def spuriousSlave : ℕ := 15

structure Pic8259 (P : Type) where
  io : P
  base : ℕ

namespace Pic8259

variable {P : Type} [PortIo P] (pic : Pic8259 P)

def new (io : P) : Pic8259 P := ⟨io, 0⟩

def vectorFor (irq : ℕ) : ℕ := pic.base + irq

def irqFor (vector : ℕ) : Option ℕ :=
  if pic.base ≤ vector ∧ vector < pic.base + lines then some (vector - pic.base) else none

/-- `self.io.write(port, value)` -/
def write (port : BitVec 16) (value : BitVec 8) : Pic8259 P :=
  { pic with io := PortIo.write pic.io port value }

/-- `self.io.wait()` -/
def wait : Pic8259 P := { pic with io := PortIo.wait pic.io }

def setMasks (masks : BitVec 16) : Pic8259 P :=
  (pic.write masterData (masks.truncate 8)).write slaveData ((masks >>> 8).truncate 8)

def masks : BitVec 16 × Pic8259 P :=
  let (io, low) := PortIo.read pic.io masterData
  let (io, high) := PortIo.read io slaveData
  (low.zeroExtend 16 ||| (high.zeroExtend 16 <<< 8), { pic with io })

/-- None where an assertion fails. -/
def remap (base : ℕ) : Option (Pic8259 P) :=
  if 32 ≤ base ∧ base ≤ 255 - lines then
    let pic := { pic with base }
    let pic := (pic.write masterCommand icw1Init).wait
    let pic := (pic.write slaveCommand icw1Init).wait
    let pic := (pic.write masterData (BitVec.ofNat 8 base)).wait
    let pic := (pic.write slaveData (BitVec.ofNat 8 (base + 8))).wait
    let pic := (pic.write masterData icw3Master).wait
    let pic := (pic.write slaveData icw3Slave).wait
    let pic := (pic.write masterData icw4Mode8086).wait
    let pic := (pic.write slaveData icw4Mode8086).wait
    some (pic.setMasks (BitVec.allOnes 16))
  else none

def unmask (irq : ℕ) : Pic8259 P :=
  let (masks, pic) := pic.masks
  let masks := masks &&& ~~~(1#16 <<< irq)
  let masks := if 8 ≤ irq then masks &&& ~~~(1#16 <<< cascadeIrq) else masks
  pic.setMasks masks

def mask (irq : ℕ) : Pic8259 P :=
  let (masks, pic) := pic.masks
  pic.setMasks (masks ||| (1#16 <<< irq))

def maskAll : Pic8259 P := pic.setMasks (BitVec.allOnes 16)

def endOfInterrupt (irq : ℕ) : Pic8259 P :=
  let pic := if 8 ≤ irq then pic.write slaveCommand ocw2Eoi else pic
  pic.write masterCommand ocw2Eoi

def isSpurious (irq : ℕ) : Bool × Pic8259 P :=
  if irq = spuriousMaster ∨ irq = spuriousSlave then
    let command := if irq = spuriousMaster then masterCommand else slaveCommand
    let pic := pic.write command ocw3ReadIsr
    let (io, isr) := PortIo.read pic.io command
    (isr &&& (1#8 <<< 7) == 0, { pic with io })
  else (false, pic)

def endOfSpurious (irq : ℕ) : Pic8259 P :=
  if irq = spuriousSlave then pic.write masterCommand ocw2Eoi else pic

end Pic8259

/-- The ports at which a machine has its two chips. -/
instance : PortIo Pair where
  write p port value :=
    if port = masterCommand then { p with master := p.master.command value }
    else if port = masterData then { p with master := p.master.data value }
    else if port = slaveCommand then { p with slave := p.slave.command value }
    else if port = slaveData then { p with slave := p.slave.data value }
    else p
  read p port := (p,
    if port = masterCommand then p.master.status
    else if port = masterData then p.master.imr
    else if port = slaveCommand then p.slave.status
    else if port = slaveData then p.slave.imr
    else 0xFF)
  wait p := p

namespace Pic8259

variable {pic : Pic8259 Pair} {p : Pair} {base irq k : ℕ} {v : BitVec 8}

section ports

@[simp] theorem write_base {port : BitVec 16} : (pic.write port v).base = pic.base := rfl

@[simp] theorem write_masterCommand :
    (pic.write masterCommand v).io = { pic.io with master := pic.io.master.command v } := rfl

@[simp] theorem write_masterData :
    (pic.write masterData v).io = { pic.io with master := pic.io.master.data v } := rfl

@[simp] theorem write_slaveCommand :
    (pic.write slaveCommand v).io = { pic.io with slave := pic.io.slave.command v } := rfl

@[simp] theorem write_slaveData :
    (pic.write slaveData v).io = { pic.io with slave := pic.io.slave.data v } := rfl

end ports

/-- The pair after its initialisation: only what was in service is left as it was. -/
def remapped (p : Pair) (base : ℕ) : Pair where
  master := ⟨.ready, 0x11, BitVec.ofNat 8 base, 4, 1, 0, p.master.isr, 0xFF, false⟩
  slave := ⟨.ready, 0x11, BitVec.ofNat 8 (base + 8), 2, 1, 0, p.slave.isr, 0xFF, false⟩

/-- The words take effect whatever the chips were in the middle of. -/
theorem remap_pair {b : ℕ} (h : 32 ≤ base) (h' : base ≤ 239) :
    (⟨p, b⟩ : Pic8259 Pair).remap base = some ⟨remapped p base, base⟩ := by
  have hm := Chip.initialise (c := p.master) (b := BitVec.ofNat 8 base) (w := 4) (m := 0xFF)
  have hs := Chip.initialise (c := p.slave) (b := BitVec.ofNat 8 (base + 8)) (w := 2) (m := 0xFF)
  rw [remap, if_pos ⟨h, h'⟩]
  exact congrArg some (congrArg₂ mk (Pair.ext hm hs) rfl)

section masks

/-- The initialisation words of the pair, with its first vector at `base`. -/
structure Programmed (p : Pair) (base : ℕ) : Prop where
  master : p.master.setup = ⟨.ready, 0x11, BitVec.ofNat 8 base, 4, 1⟩
  slave : p.slave.setup = ⟨.ready, 0x11, BitVec.ofNat 8 (base + 8), 2, 1⟩

theorem Programmed.of_held {q : Pair} (h : Programmed p base) (hq : q.held = p.held) :
    Programmed q base := by
  simp only [Pair.held, Pair.heldBy, Prod.mk.injEq] at hq
  exact ⟨hq.1.1.trans h.master, hq.2.1.trans h.slave⟩

theorem programmed_remapped : Programmed (remapped p base) base := ⟨rfl, rfl⟩

/-- Whether line `k` of the pair is masked. -/
def isMasked (p : Pair) (k : ℕ) : Bool :=
  if k < 8 then p.master.imr.getLsbD k else p.slave.imr.getLsbD (k - 8)

/-- Whether line `k` of the pair is requested. -/
def isRequested (p : Pair) (k : ℕ) : Bool :=
  if k < 8 then p.master.irr.getLsbD k else p.slave.irr.getLsbD (k - 8)

theorem masks_eq : pic.masks = (pic.io.slave.imr ++ pic.io.master.imr, pic) := by
  have h : pic.masks.1 = pic.io.slave.imr ++ pic.io.master.imr := by
    show pic.io.master.imr.zeroExtend 16 ||| (pic.io.slave.imr.zeroExtend 16 <<< 8) = _
    apply BitVec.eq_of_getLsbD_eq
    intro i hi
    rw [BitVec.getLsbD_append, BitVec.getLsbD_or, BitVec.getLsbD_shiftLeft]
    simp only [BitVec.truncate_eq_setWidth, BitVec.getLsbD_setWidth, hi, decide_true, Bool.true_and]
    by_cases h : i < 8
    · simp [h]
    · simp [h, BitVec.getLsbD_of_ge pic.io.master.imr i (by omega)]
      omega
  exact Prod.ext h rfl

theorem getLsbD_masks : pic.masks.1.getLsbD k = isMasked pic.io k := by
  rw [masks_eq, BitVec.getLsbD_append, isMasked]

variable {m : BitVec 16}

theorem setMasks_io (h : Programmed pic.io base) : (pic.setMasks m).io =
    ⟨{ pic.io.master with imr := m.truncate 8 },
      { pic.io.slave with imr := (m >>> 8).truncate 8 }⟩ := by
  have hm := Chip.data_ready (v := m.truncate 8) (congrArg Chip.Setup.stage h.master)
  have hs := Chip.data_ready (v := (m >>> 8).truncate 8) (congrArg Chip.Setup.stage h.slave)
  exact Pair.ext hm hs

theorem Programmed.setMasks (h : Programmed pic.io base) : Programmed (pic.setMasks m).io base := by
  rw [setMasks_io h]
  exact ⟨h.master, h.slave⟩

/-- The masks are all that `set_masks` changes. -/
theorem setMasks_frame (h : Programmed pic.io base) :
    (pic.setMasks m).base = pic.base ∧
    (pic.setMasks m).io.master.isr = pic.io.master.isr ∧
    (pic.setMasks m).io.slave.isr = pic.io.slave.isr ∧
    (pic.setMasks m).io.master.irr = pic.io.master.irr ∧
    (pic.setMasks m).io.slave.irr = pic.io.slave.irr := by
  rw [setMasks_io h]
  exact ⟨rfl, rfl, rfl, rfl, rfl⟩

theorem isMasked_setMasks (h : Programmed pic.io base) (hk : k < 16) :
    isMasked (pic.setMasks m).io k = m.getLsbD k := by
  rw [setMasks_io h, isMasked]
  by_cases h8 : k < 8
  · simp [h8]
  · have hk8 : k - 8 < 8 := by omega
    simp only [h8, if_false, BitVec.truncate_eq_setWidth, BitVec.getLsbD_setWidth, hk8,
      BitVec.getLsbD_ushiftRight, decide_true, Bool.true_and]
    congr 1
    omega

theorem getLsbD_clear (hk : k < 16) :
    (m &&& ~~~(1#16 <<< irq)).getLsbD k = (m.getLsbD k && !(k == irq)) := by
  rw [BitVec.getLsbD_and, BitVec.getLsbD_not, ← BitVec.twoPow_eq, BitVec.getLsbD_twoPow]
  by_cases h : irq = k
  · simp [h, hk]
  · simp [h, hk, Ne.symm h]

theorem getLsbD_set (hk : k < 16) :
    (m ||| 1#16 <<< irq).getLsbD k = (m.getLsbD k || k == irq) := by
  rw [BitVec.getLsbD_or, ← BitVec.twoPow_eq, BitVec.getLsbD_twoPow]
  by_cases h : irq = k
  · simp [h, hk]
  · simp [h, Ne.symm h]

theorem unmask_eq : pic.unmask irq = pic.setMasks
    (if 8 ≤ irq then (pic.masks.1 &&& ~~~(1#16 <<< irq)) &&& ~~~(1#16 <<< cascadeIrq)
      else pic.masks.1 &&& ~~~(1#16 <<< irq)) := rfl

theorem mask_eq : pic.mask irq = pic.setMasks (pic.masks.1 ||| (1#16 <<< irq)) := rfl

/-- A line of the slave opens the wire to the master with it. -/
theorem isMasked_unmask (h : Programmed pic.io base) (hk : k < 16) :
    isMasked (pic.unmask irq).io k =
      (isMasked pic.io k && !(k == irq) && !(decide (8 ≤ irq) && k == cascadeIrq)) := by
  rw [unmask_eq, isMasked_setMasks h hk, ← getLsbD_masks]
  by_cases h8 : 8 ≤ irq
  · rw [if_pos h8, getLsbD_clear hk, getLsbD_clear hk]
    simp [h8]
  · rw [if_neg h8, getLsbD_clear hk]
    simp [h8]

theorem isMasked_mask (h : Programmed pic.io base) (hk : k < 16) :
    isMasked (pic.mask irq).io k = (isMasked pic.io k || k == irq) := by
  rw [mask_eq, isMasked_setMasks h hk, ← getLsbD_masks, getLsbD_set hk]

end masks

section vectors

theorem Programmed.cascaded (h : Programmed p base) : p.Cascaded := by
  have hm : p.master.icw1 = 0x11 ∧ p.master.icw3 = 4 :=
    ⟨congrArg Chip.Setup.icw1 h.master, congrArg Chip.Setup.icw3 h.master⟩
  have hs : p.slave.icw1 = 0x11 ∧ p.slave.icw3 = 2 :=
    ⟨congrArg Chip.Setup.icw1 h.slave, congrArg Chip.Setup.icw3 h.slave⟩
  constructor
  · intro i hi
    rw [Pair.defers, Chip.cascaded, hm.1, hm.2]
    revert i
    decide
  · rw [Pair.hears, Chip.cascaded, hs.1, hs.2]
    decide

/-- The chip keeps the five high bits of its second word. -/
theorem vector_bits : ∀ b < 256, ∀ i < 8,
    ((BitVec.ofNat 8 b &&& 0xF8) ||| BitVec.ofNat 8 i).toNat = 8 * (b / 8) + i := by
  decide +kernel

theorem Programmed.vectorOf (h : Programmed p base) (hb : base ≤ 239) {c : Pair.Cause}
    (hc : c.answered < 16) : (p.vectorOf c).toNat = 8 * (base / 8) + c.answered := by
  have hm : p.master.icw2 = BitVec.ofNat 8 base ∧ p.master.icw4 = 1 :=
    ⟨congrArg Chip.Setup.icw2 h.master, congrArg Chip.Setup.icw4 h.master⟩
  have hs : p.slave.icw2 = BitVec.ofNat 8 (base + 8) ∧ p.slave.icw4 = 1 :=
    ⟨congrArg Chip.Setup.icw2 h.slave, congrArg Chip.Setup.icw4 h.slave⟩
  unfold Pair.vectorOf
  by_cases h8 : c.answered < 8
  · rw [if_pos h8, Chip.vector, hm.1, hm.2, if_pos (by decide), vector_bits base (by omega) _ h8]
  · rw [if_neg h8, Chip.vector, hs.1, hs.2, if_pos (by decide),
      vector_bits (base + 8) (by omega) _ (by omega)]
    omega

end vectors

section acknowledgement

/-- Everything of the pair but what is in service. -/
def kept (p : Pair) : (Chip.Setup × BitVec 8 × BitVec 8) × (Chip.Setup × BitVec 8 × BitVec 8) :=
  ((p.master.setup, p.master.irr, p.master.imr), (p.slave.setup, p.slave.irr, p.slave.imr))

variable {i : ℕ}

theorem Programmed.of_kept {q : Pair} (h : Programmed p base) (hq : kept q = kept p) :
    Programmed q base := by
  simp only [kept, Prod.mk.injEq] at hq
  exact ⟨hq.1.1.trans h.master, hq.2.1.trans h.slave⟩

@[simp] theorem kept_endOfInterrupt : kept (pic.endOfInterrupt i).io = kept pic.io := by
  unfold endOfInterrupt
  by_cases h : 8 ≤ i <;> simp [h, kept, ocw2Eoi]

@[simp] theorem endOfInterrupt_base : (pic.endOfInterrupt i).base = pic.base := by
  unfold endOfInterrupt
  by_cases h : 8 ≤ i <;> simp [h]

@[simp] theorem endOfSpurious_base : (pic.endOfSpurious i).base = pic.base := by
  unfold endOfSpurious
  by_cases h : i = spuriousSlave <;> simp [h]

@[simp] theorem kept_endOfSpurious : kept (pic.endOfSpurious i).io = kept pic.io := by
  unfold endOfSpurious
  by_cases h : i = spuriousSlave <;> simp [h, kept, ocw2Eoi]

theorem bit_seven (w : BitVec 8) : (w &&& (1#8 <<< 7) == 0) = !w.getLsbD 7 := by
  revert w
  decide

theorem isSpurious_seven : pic.isSpurious 7 = (!pic.io.master.isr.getLsbD 7,
    { pic with io.master := { pic.io.master with readIsr := true } }) := by
  have hc : pic.io.master.command ocw3ReadIsr = { pic.io.master with readIsr := true } :=
    Chip.command_readIsr
  rw [← bit_seven, isSpurious, if_pos (.inl rfl)]
  simp only [spuriousMaster, if_true, write_masterCommand, hc]
  rfl

theorem isSpurious_fifteen : pic.isSpurious 15 = (!pic.io.slave.isr.getLsbD 7,
    { pic with io.slave := { pic.io.slave with readIsr := true } }) := by
  have hc : pic.io.slave.command ocw3ReadIsr = { pic.io.slave with readIsr := true } :=
    Chip.command_readIsr
  rw [← bit_seven, isSpurious, if_pos (.inr rfl)]
  simp only [spuriousMaster, show ¬(15 = 7) by decide, if_false, write_slaveCommand, hc]
  rfl

theorem isSpurious_other (h7 : i ≠ 7) (h15 : i ≠ 15) : pic.isSpurious i = (false, pic) := by
  rw [isSpurious, if_neg]
  rintro (h | h)
  · exact h7 h
  · exact h15 h

/-- To ask whether an interrupt is spurious changes only what a command port reads as. -/
theorem isSpurious_frame :
    kept (pic.isSpurious i).2.io = kept pic.io ∧
    (pic.isSpurious i).2.io.master.isr = pic.io.master.isr ∧
    (pic.isSpurious i).2.io.slave.isr = pic.io.slave.isr ∧
    (pic.isSpurious i).2.base = pic.base := by
  by_cases h7 : i = 7
  · subst h7
    rw [isSpurious_seven]
    exact ⟨rfl, rfl, rfl, rfl⟩
  · by_cases h15 : i = 15
    · subst h15
      rw [isSpurious_fifteen]
      exact ⟨rfl, rfl, rfl, rfl⟩
    · rw [isSpurious_other h7 h15]
      exact ⟨rfl, rfl, rfl, rfl⟩

/-- What is in service tells a withdrawn request from a line. -/
theorem isSpurious_cause {c : Pair.Cause} (hc : c.answered < 16)
    (h : (pic.io.master.isr, pic.io.slave.isr) = c.serving) :
    (pic.isSpurious c.answered).1 = c.ghost := by
  cases c with
  | line i =>
    have hi : i < 16 := hc
    by_cases h7 : i = 7
    · subst h7
      rw [Pair.Cause.serving, if_pos (by decide), Prod.mk.injEq] at h
      rw [Pair.Cause.answered, isSpurious_seven, h.1]
      rfl
    · by_cases h15 : i = 15
      · subst h15
        rw [Pair.Cause.serving, if_neg (by decide), Prod.mk.injEq] at h
        rw [Pair.Cause.answered, isSpurious_fifteen, h.2]
        rfl
      · exact congrArg Prod.fst (isSpurious_other h7 h15)
  | ghostMaster =>
    rw [Pair.Cause.serving, Prod.mk.injEq] at h
    rw [Pair.Cause.answered, isSpurious_seven, h.1]
    rfl
  | ghostSlave =>
    rw [Pair.Cause.serving, Prod.mk.injEq] at h
    rw [Pair.Cause.answered, isSpurious_fifteen, h.2]
    rfl

/-- The line in service is retired, on the slave and on its wire for a line of the slave. -/
theorem endOfInterrupt_quiet (hi : i < 16)
    (h : (pic.io.master.isr, pic.io.slave.isr) = (Pair.Cause.line i).serving) :
    (pic.endOfInterrupt i).io.Quiet := by
  unfold endOfInterrupt
  by_cases h8 : 8 ≤ i
  · rw [Pair.Cause.serving, if_neg (by omega), Prod.mk.injEq] at h
    rw [if_pos h8]
    exact ⟨Chip.command_eoi_single (by decide) h.1, Chip.command_eoi_single (by omega) h.2⟩
  · rw [Pair.Cause.serving, if_pos (by omega), Prod.mk.injEq] at h
    rw [if_neg h8]
    exact ⟨Chip.command_eoi_single (by omega) h.1, h.2⟩

/-- A withdrawn request of the slave holds its wire, and one of the master nothing. -/
theorem endOfSpurious_quiet {c : Pair.Cause} (hc : c.ghost = true)
    (h : (pic.io.master.isr, pic.io.slave.isr) = c.serving) :
    (pic.endOfSpurious c.answered).io.Quiet := by
  cases c with
  | line i => cases hc
  | ghostMaster => exact Prod.mk.inj h
  | ghostSlave =>
    rw [Pair.Cause.serving, Prod.mk.injEq] at h
    exact ⟨Chip.command_eoi_single (by decide) h.1, h.2⟩

end acknowledgement

section placement

variable {i : ℕ}

theorem isMasked_remapped (hk : k < 16) : isMasked (remapped p base) k = true := by
  have hall : ∀ k < 8, (0xFF : BitVec 8).getLsbD k = true := by decide
  rw [isMasked]
  split
  · exact hall k ‹_›
  · exact hall (k - 8) (by omega)

theorem unmask_frame (h : Programmed pic.io base) : Programmed (pic.unmask i).io base ∧
    (pic.unmask i).base = pic.base ∧
    (pic.unmask i).io.master.isr = pic.io.master.isr ∧
    (pic.unmask i).io.slave.isr = pic.io.slave.isr ∧
    (pic.unmask i).io.master.irr = pic.io.master.irr ∧
    (pic.unmask i).io.slave.irr = pic.io.slave.irr :=
  ⟨h.setMasks, setMasks_frame h⟩

theorem mask_frame (h : Programmed pic.io base) : Programmed (pic.mask i).io base ∧
    (pic.mask i).base = pic.base ∧
    (pic.mask i).io.master.isr = pic.io.master.isr ∧
    (pic.mask i).io.slave.isr = pic.io.slave.isr ∧
    (pic.mask i).io.master.irr = pic.io.master.irr ∧
    (pic.mask i).io.slave.irr = pic.io.slave.irr :=
  ⟨h.setMasks, setMasks_frame h⟩

/-- With nothing in service a line is heard when neither it nor its wire is masked. -/
theorem settle_int (h : Programmed p base) (hq : p.Quiet) (hi : i < 16) (hw : i ≠ wire)
    (hr : isRequested p i = true) (hm : isMasked p i = false)
    (hcas : 8 ≤ i → isMasked p wire = false) : p.settle.master.int = true := by
  have hs : p.settle.held = p.held := Pair.settle_held
  have hprog := h.of_held hs
  have hquiet := hq.of_held hs
  have himr : p.settle.master.imr = p.master.imr := congrArg (·.1.2.2) hs
  have hready := congrArg Chip.Setup.stage hprog.master
  by_cases h8 : i < 8
  · rw [isRequested, if_pos h8] at hr
    rw [isMasked, if_pos h8] at hm
    exact Chip.int_of_requested hready hquiet.1 h8 ((Pair.settle_irr hw).trans hr) (himr ▸ hm)
  · rw [isRequested, if_neg h8] at hr
    rw [isMasked, if_neg h8] at hm
    have hint : p.slave.int = true := Chip.int_of_requested (congrArg Chip.Setup.stage h.slave)
      hq.2 (by omega) hr hm
    exact Chip.int_of_requested hready hquiet.1 (by decide) (Pair.settle_irr_wire.trans hint)
      (himr ▸ hcas (by omega))

/-- The only line requested of an otherwise silent pair is the one that interrupts. -/
theorem cause_only (h : Programmed p base) (hq : p.Quiet) (hm : p.master.irr = 0)
    (hs : p.slave.irr = 0) (hi : i < 16) (hw : i ≠ wire) (hmask : isMasked p i = false)
    (hcas : 8 ≤ i → isMasked p wire = false) : (p.raise i).settle.cause = .line i := by
  by_cases h8 : i < 8
  · have hr : p.raise i = { p with master := p.master.raise i } := if_pos h8
    have hint : (p.raise i).slave.int = false := by
      rw [hr, Chip.int, Chip.requested_nothing hs]
      exact Bool.and_false _
    have hset : (p.raise i).settle.master = (p.master.raise i).lower wire := by
      rw [Pair.settle, hint, hr]
      rfl
    apply Pair.cause_master _ hw
    rw [hset]
    apply Chip.requested_only (c := (p.master.raise i).lower wire) hq.1
    · simp [hm, h8, Ne.symm hw]
    · simpa [isMasked, h8] using hmask
    · intro k hk
      simp [hm, Ne.symm hk]
  · have hr : p.raise i = { p with slave := p.slave.raise (i - 8) } := if_neg h8
    have hj : i - 8 < 8 := by omega
    have hmj : p.slave.imr.getLsbD (i - 8) = false := by
      rw [isMasked, if_neg h8] at hmask
      exact hmask
    have hreq : (p.slave.raise (i - 8)).requested = some (i - 8) := by
      apply Chip.requested_only (c := p.slave.raise (i - 8)) hq.2
      · simp [hs, hj]
      · exact hmj
      · intro k hk
        simp [hs, Ne.symm hk]
    have hint : (p.raise i).slave.int = true := by
      rw [hr, Chip.int, hreq]
      exact Bool.and_eq_true_iff.mpr ⟨decide_eq_true (congrArg Chip.Setup.stage h.slave), rfl⟩
    have hset : (p.raise i).settle = ⟨p.master.raise wire, p.slave.raise (i - 8)⟩ := by
      rw [Pair.settle, hint, hr]
      rfl
    have hmw : p.master.imr.getLsbD wire = false := hcas (by omega)
    have hreqm : (p.master.raise wire).requested = some wire := by
      apply Chip.requested_only (c := p.master.raise wire) hq.1
      · simp [hm, wire]
      · exact hmw
      · intro k hk
        simp [hm, Ne.symm hk]
    have hcause := Pair.cause_slave (p := ⟨p.master.raise wire, p.slave.raise (i - 8)⟩) hreqm hreq
    rw [hset, hcause, Nat.add_sub_cancel' (by omega : 8 ≤ i)]

/-- From whatever the firmware left, the pair is moved and silenced; and each line arrives where
the driver says exactly when the first vector is a multiple of 8. -/
theorem remap_places (hq : p.Quiet) (h : 32 ≤ base) (h' : base ≤ 239) :
    ∃ pic, (Pic8259.new p).remap base = some pic ∧ (∀ k < 16, isMasked pic.io k = true) ∧
      ((∀ i < 16, i ≠ cascadeIrq → ((pic.unmask i).io.raise i).settle.acknowledge.2.toNat =
        pic.vectorFor i) ↔ 8 ∣ base) := by
  refine ⟨_, remap_pair h h', fun k hk => isMasked_remapped hk, ?_⟩
  have hvec (i : ℕ) (hi : i < 16) (hw : i ≠ cascadeIrq) :
      (((⟨remapped p base, base⟩ : Pic8259 Pair).unmask i).io.raise i).settle.acknowledge.2.toNat =
        8 * (base / 8) + i := by
    obtain ⟨pic, hpic⟩ : ∃ x : Pic8259 Pair, x = ⟨remapped p base, base⟩ := ⟨_, rfl⟩
    have hp : Programmed pic.io base := hpic ▸ programmed_remapped
    have hz : pic.io.master.irr = 0 ∧ pic.io.slave.irr = 0 := by simp [hpic, remapped]
    have hqp : pic.io.Quiet := by rw [hpic]; exact hq
    obtain ⟨hpu, -, hisrm, hisrs, hirrm, hirrs⟩ := unmask_frame (i := i) hp
    have hqu : (pic.unmask i).io.Quiet := ⟨hisrm.trans hqp.1, hisrs.trans hqp.2⟩
    have hcause : ((pic.unmask i).io.raise i).settle.cause = .line i := by
      apply cause_only hpu hqu (hirrm.trans hz.1) (hirrs.trans hz.2) hi hw
      · rw [isMasked_unmask hp hi]
        simp
      · intro h8
        rw [isMasked_unmask hp (by decide)]
        simp [h8, wire, cascadeIrq]
    have hheld : ((pic.unmask i).io.raise i).settle.held = (pic.unmask i).io.held :=
      Pair.settle_held.trans Pair.raise_held
    rw [← hpic, (Pair.acknowledge_spec (hpu.of_held hheld).cascaded (hqu.of_held hheld)).1, hcause]
    exact (hpu.of_held hheld).vectorOf h' (c := .line i) hi
  constructor
  · intro hall
    have h0 := (hvec 0 (by decide) (by decide)).symm.trans (hall 0 (by decide) (by decide))
    exact ⟨base / 8, h0.symm⟩
  · rintro ⟨n, rfl⟩ i hi hw
    rw [hvec i hi hw, Nat.mul_div_cancel_left n (by decide)]
    rfl

theorem remap_places_thirtyTwo :
    ∃ pic, (Pic8259.new (⟨⟨.icw3, 0x11, 0x08, 0, 0, 0x81, 0, 0xB8, true⟩,
      ⟨.ready, 0x11, 0x70, 2, 1, 0, 0, 0, false⟩⟩ : Pair)).remap 32 = some pic ∧
      ∀ i < 16, i ≠ cascadeIrq →
        ((pic.unmask i).io.raise i).settle.acknowledge.2.toNat = pic.vectorFor i := by
  obtain ⟨pic, hpic, -, hiff⟩ := @remap_places
    ⟨⟨.icw3, 0x11, 0x08, 0, 0, 0x81, 0, 0xB8, true⟩, ⟨.ready, 0x11, 0x70, 2, 1, 0, 0, 0, false⟩⟩ 32
    ⟨rfl, rfl⟩ (by decide) (by decide)
  exact ⟨pic, hpic, hiff.mpr (by decide)⟩

end placement

end Pic8259

end StarOs.Arch.Pic
