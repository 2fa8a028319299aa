import StarOs.Library.Lines

/-! The 8259 interrupt controller and a cascaded pair of them, in the fully nested mode: lines
are served lowest number first, a line in service holds back its own number and every later
one, and the end of an interrupt retires the line of highest priority in service. A chip that
is asked for a vector with nothing requested answers with its line 7 and serves nothing. -/

namespace StarOs.Library.I8259

open Lines

/-- What the next byte written to the data port of a chip is taken for. -/
inductive Stage where
  | icw2
  | icw3
  | icw4
  | ready
  deriving DecidableEq, Repr

structure Chip where
  stage : Stage
  icw1 : BitVec 8
  icw2 : BitVec 8
  icw3 : BitVec 8
  icw4 : BitVec 8
  /-- the lines requested -/
  irr : BitVec 8
  /-- the lines in service -/
  isr : BitVec 8
  /-- the lines masked -/
  imr : BitVec 8
  /-- whether the command port reads as the lines in service -/
  readIsr : Bool
  deriving DecidableEq, Repr

namespace Chip

variable (c : Chip)

/-- A second chip is wired to one of the lines. -/
def cascaded : Bool := !c.icw1.getLsbD 1

/-- A fourth initialisation word is to come. -/
def expectsIcw4 : Bool := c.icw1.getLsbD 0

/-- A byte written to the command port. Bit 4 starts an initialisation, in which the requests
and the masks are forgotten; bit 3 selects the register that is read back; the end of an
interrupt is the one other command. -/
def command (v : BitVec 8) : Chip :=
  if v.getLsbD 4 then
    { c with
      stage := .icw2, icw1 := v, irr := 0, imr := 0, readIsr := false
      icw4 := if v.getLsbD 0 then c.icw4 else 0 }
  else if v.getLsbD 3 then
    if v.getLsbD 1 then { c with readIsr := v.getLsbD 0 } else c
  else if v.extractLsb' 5 3 = 1 then
    match lowest c.isr with
    | some i => { c with isr := clearLine c.isr i }
    | none => c
  else c

/-- A byte written to the data port. -/
def data (v : BitVec 8) : Chip :=
  match c.stage with
  | .icw2 => { c with icw2 := v, stage := if c.cascaded then .icw3 else
                                            if c.expectsIcw4 then .icw4 else .ready }
  | .icw3 => { c with icw3 := v, stage := if c.expectsIcw4 then .icw4 else .ready }
  | .icw4 => { c with icw4 := v, stage := .ready }
  | .ready => { c with imr := v }

/-- The command port read back. -/
def status : BitVec 8 := if c.readIsr then c.isr else c.irr

/-- The line to serve next: requested, not masked, and before every line in service. -/
def requested : Option ℕ :=
  match lowest (c.irr &&& ~~~c.imr), lowest c.isr with
  | some i, none => some i
  | some i, some j => if i < j then some i else none
  | none, _ => none

/-- The chip asks to interrupt. -/
def int : Bool := decide (c.stage = .ready) && c.requested.isSome

/-- Line `i` goes into service. -/
def serve (i : ℕ) : Chip := { c with irr := clearLine c.irr i, isr := setLine c.isr i }

/-- What the chip puts on the bus for line `i`: its vector, or a call instruction where it was
not told that the processor takes vectors. -/
def vector (i : ℕ) : BitVec 8 :=
  if c.icw4.getLsbD 0 then (c.icw2 &&& 0xF8) ||| BitVec.ofNat 8 i else 0xCD

def raise (i : ℕ) : Chip := { c with irr := setLine c.irr i }

def lower (i : ℕ) : Chip := { c with irr := clearLine c.irr i }

/-- What the initialisation words left, which no later command changes but another of them. -/
structure Setup where
  stage : Stage
  icw1 : BitVec 8
  icw2 : BitVec 8
  icw3 : BitVec 8
  icw4 : BitVec 8
  deriving DecidableEq, Repr

def setup : Setup := ⟨c.stage, c.icw1, c.icw2, c.icw3, c.icw4⟩

section frame

variable {c} {i : ℕ} {v : BitVec 8}

@[simp] theorem raise_setup : (c.raise i).setup = c.setup := rfl
@[simp] theorem raise_isr : (c.raise i).isr = c.isr := rfl
@[simp] theorem raise_imr : (c.raise i).imr = c.imr := rfl
@[simp] theorem raise_irr : (c.raise i).irr = setLine c.irr i := rfl

@[simp] theorem lower_setup : (c.lower i).setup = c.setup := rfl
@[simp] theorem lower_isr : (c.lower i).isr = c.isr := rfl
@[simp] theorem lower_imr : (c.lower i).imr = c.imr := rfl
@[simp] theorem lower_irr : (c.lower i).irr = clearLine c.irr i := rfl

@[simp] theorem serve_setup : (c.serve i).setup = c.setup := rfl
@[simp] theorem serve_isr : (c.serve i).isr = setLine c.isr i := rfl
@[simp] theorem serve_imr : (c.serve i).imr = c.imr := rfl
@[simp] theorem serve_irr : (c.serve i).irr = clearLine c.irr i := rfl

theorem data_ready (h : c.setup.stage = .ready) : c.data v = { c with imr := v } := by
  have hs : c.stage = .ready := h
  simp [data, hs]

/-- Initialisation takes effect whatever the chip was in the middle of, and leaves alone only
what is in service. -/
theorem initialise {b w m : BitVec 8} : ((((c.command 0x11).data b).data w).data 0x01).data m =
    ⟨.ready, 0x11, b, w, 0x01, 0, c.isr, m, false⟩ := by
  have h : c.command 0x11 = ⟨.icw2, 0x11, c.icw2, c.icw3, c.icw4, 0, c.isr, 0, false⟩ := by
    simp [command]
  rw [h]
  simp [data, cascaded, expectsIcw4]

/-- OCW3: read the lines in service. -/
@[simp] theorem command_readIsr : c.command 11#8 = { c with readIsr := true } := by
  simp [command]

/-- OCW2: the non-specific end of interrupt. -/
theorem command_eoi : c.command 32#8 = match lowest c.isr with
    | some i => { c with isr := clearLine c.isr i }
    | none => c := by
  rw [command, if_neg (by decide), if_neg (by decide), if_pos (by decide)]

@[simp] theorem command_eoi_setup : (c.command 32#8).setup = c.setup := by
  rw [command_eoi]
  cases lowest c.isr <;> rfl

@[simp] theorem command_eoi_imr : (c.command 32#8).imr = c.imr := by
  rw [command_eoi]
  cases lowest c.isr <;> rfl

@[simp] theorem command_eoi_irr : (c.command 32#8).irr = c.irr := by
  rw [command_eoi]
  cases lowest c.isr <;> rfl

/-- The only line in service is retired. -/
theorem command_eoi_single (hi : i < 8) (h : c.isr = setLine 0 i) : (c.command 32#8).isr = 0 := by
  rw [command_eoi, h, lowest_single hi]
  exact clearLine_single

end frame

section requests

variable {c} {i : ℕ}

theorem requested_quiet (h : c.isr = 0) : c.requested = lowest (c.irr &&& ~~~c.imr) := by
  rw [requested, h, lowest_zero]
  cases lowest (c.irr &&& ~~~c.imr) <;> rfl

/-- The only line requested is the one to serve. -/
theorem requested_only (h : c.isr = 0) (hr : c.irr.getLsbD i = true)
    (hm : c.imr.getLsbD i = false) (ho : ∀ k, k ≠ i → c.irr.getLsbD k = false) :
    c.requested = some i := by
  rw [requested_quiet h, lowest_eq_some]
  constructor
  · rw [BitVec.getLsbD_and, BitVec.getLsbD_not, hr, hm, decide_eq_true (BitVec.lt_of_getLsbD hr)]
    rfl
  · intro k hk
    rw [BitVec.getLsbD_and, ho k (by omega), Bool.false_and]

/-- A line is served only when it is requested and not masked. -/
theorem of_requested (h : c.requested = some i) :
    i < 8 ∧ c.irr.getLsbD i = true ∧ c.imr.getLsbD i = false := by
  have hlow : lowest (c.irr &&& ~~~c.imr) = some i := by
    rw [requested] at h
    split at h
    · rename_i hl _
      exact hl.trans h
    · rename_i hl _
      split at h
      · exact hl.trans h
      · cases h
    · cases h
  have hbit := (lowest_eq_some.mp hlow).1
  rw [BitVec.getLsbD_and, BitVec.getLsbD_not, Bool.and_eq_true, Bool.and_eq_true,
    Bool.not_eq_true'] at hbit
  exact ⟨lowest_lt hlow, hbit.1, hbit.2.2⟩

theorem requested_nothing (h : c.irr = 0) : c.requested = none := by
  have hz : (0 : BitVec 8) &&& ~~~c.imr = 0 := by simp
  rw [requested, h, hz]
  rfl

theorem int_of_requested (hs : c.setup.stage = .ready) (h : c.isr = 0) (hi : i < 8)
    (hr : c.irr.getLsbD i = true) (hm : c.imr.getLsbD i = false) : c.int = true := by
  have hs' : c.stage = .ready := hs
  rw [int, hs', requested_quiet h, decide_eq_true rfl, Bool.true_and]
  apply lowest_isSome (i := i)
  rw [BitVec.getLsbD_and, BitVec.getLsbD_not, hr, hm, decide_eq_true hi]
  rfl

end requests

end Chip

/-- The line of the master that the slave drives. -/
def wire : ℕ := 2

@[ext] structure Pair where
  master : Chip
  slave : Chip
  deriving DecidableEq, Repr

namespace Pair

variable (p : Pair)

/-- The master leaves the vector of line `i` to the slave. -/
def defers (i : ℕ) : Bool := p.master.cascaded && p.master.icw3.getLsbD i

/-- The slave takes the vector of line `i` for its own to give. -/
def hears (i : ℕ) : Bool := p.slave.cascaded && decide ((p.slave.icw3.extractLsb' 0 3).toNat = i)

/-- The processor asks for a vector. A line that the master defers and the slave does not hear
leaves the bus floating. -/
def acknowledge : Pair × BitVec 8 :=
  match p.master.requested with
  | none => (p, p.master.vector 7)
  | some i =>
    if p.defers i then
      if p.hears i then
        match p.slave.requested with
        | none => ({ p with master := p.master.serve i }, p.slave.vector 7)
        | some j => (⟨p.master.serve i, p.slave.serve j⟩, p.slave.vector j)
      else ({ p with master := p.master.serve i }, 0xFF)
    else ({ p with master := p.master.serve i }, p.master.vector i)

/-- Line `i` of the pair, the slave's lines from 8 on. -/
def raise (i : ℕ) : Pair :=
  if i < 8 then { p with master := p.master.raise i } else { p with slave := p.slave.raise (i - 8) }

def lower (i : ℕ) : Pair :=
  if i < 8 then { p with master := p.master.lower i } else { p with slave := p.slave.lower (i - 8) }

/-- The wire between the chips carries what the slave asks. -/
def settle : Pair :=
  { p with master := if p.slave.int then p.master.raise wire else p.master.lower wire }

/-- No line of either chip is in service. -/
def Quiet : Prop := p.master.isr = 0 ∧ p.slave.isr = 0

/-- Line `wire` of the master, and no other, is left to the slave, which hears it. -/
def Cascaded : Prop := (∀ i < 8, p.defers i = decide (i = wire)) ∧ p.hears wire = true

/-- What the processor was interrupted by: a line of the pair, or a request of one of the
chips that was withdrawn before it was answered. -/
inductive Cause where
  | line (i : ℕ)
  | ghostMaster
  | ghostSlave
  deriving DecidableEq, Repr

/-- The line whose vector the processor is given. -/
def Cause.answered : Cause → ℕ
  | .line i => i
  | .ghostMaster => 7
  | .ghostSlave => 15

/-- `Cause.ghostMaster` and `Cause.ghostSlave` -/
def Cause.ghost : Cause → Bool
  | .line _ => false
  | _ => true

/-- What is in service while the cause is handled. -/
def Cause.serving : Cause → BitVec 8 × BitVec 8
  | .line i => if i < 8 then (setLine 0 i, 0) else (setLine 0 wire, setLine 0 (i - 8))
  | .ghostMaster => (0, 0)
  | .ghostSlave => (setLine 0 wire, 0)

/-- The vector that the pair gives for the cause. -/
def vectorOf (c : Cause) : BitVec 8 :=
  if c.answered < 8 then p.master.vector c.answered else p.slave.vector (c.answered - 8)

/-- The cause of the interrupt that `acknowledge` answers. -/
def cause : Cause :=
  match p.master.requested with
  | none => .ghostMaster
  | some i =>
    if i = wire then
      match p.slave.requested with
      | none => .ghostSlave
      | some j => .line (8 + j)
    else .line i

variable {p}

/-- Of a cascaded pair with nothing in service, the answer names the cause, and what the
cause says goes into service. -/
theorem acknowledge_spec (hc : p.Cascaded) (hq : p.Quiet) :
    p.acknowledge.2 = p.vectorOf p.cause ∧
    (p.acknowledge.1.master.isr, p.acknowledge.1.slave.isr) = p.cause.serving ∧
    p.acknowledge.1.master.setup = p.master.setup ∧ p.acknowledge.1.slave.setup = p.slave.setup ∧
    p.acknowledge.1.master.imr = p.master.imr ∧ p.acknowledge.1.slave.imr = p.slave.imr := by
  obtain ⟨hm, hs⟩ := hq
  unfold acknowledge cause
  cases hr : p.master.requested with
  | none => simp [vectorOf, Cause.answered, Cause.serving, hm, hs]
  | some i =>
    have hi := (Chip.of_requested hr).1
    simp only [hc.1 i hi]
    by_cases hw : i = wire
    · subst hw
      simp only [decide_true, if_true, hc.2]
      cases hj : p.slave.requested with
      | none => simp [vectorOf, Cause.answered, Cause.serving, hm, hs]
      | some j => simp [vectorOf, Cause.answered, Cause.serving, hm, hs]
    · simp [hw, vectorOf, Cause.answered, Cause.serving, hm, hs, hi]

theorem cause_master {i : ℕ} (h : p.master.requested = some i) (hw : i ≠ wire) :
    p.cause = .line i := by
  rw [cause, h]
  exact if_neg hw

theorem cause_slave {j : ℕ} (h : p.master.requested = some wire) (hj : p.slave.requested = some j) :
    p.cause = .line (8 + j) := by
  rw [cause, h, hj]
  exact if_pos rfl

/-- A line is answered only when it is requested and not masked, and one of the slave's only
when its wire to the master is neither masked. -/
theorem cause_line {i : ℕ} (h : p.cause = .line i) :
    (i < 8 ∧ i ≠ wire ∧ p.master.imr.getLsbD i = false) ∨
    (8 ≤ i ∧ i < 16 ∧ p.slave.imr.getLsbD (i - 8) = false ∧ p.master.imr.getLsbD wire = false) := by
  unfold cause at h
  split at h
  · cases h
  · rename_i k hk
    obtain ⟨hk8, -, hkm⟩ := Chip.of_requested hk
    split at h
    · rename_i hw
      subst hw
      split at h
      · cases h
      · rename_i j hj
        obtain ⟨hj8, -, hjm⟩ := Chip.of_requested hj
        cases h
        exact .inr ⟨by omega, by omega, by simpa using hjm, hkm⟩
    · rename_i hw
      cases h
      exact .inl ⟨hk8, hw, hkm⟩

/-- A request that the slave disowns came over a wire that is not masked. -/
theorem cause_ghostSlave (h : p.cause = .ghostSlave) : p.master.imr.getLsbD wire = false := by
  unfold cause at h
  split at h
  · cases h
  · rename_i k hk
    split at h
    · rename_i hw
      exact hw ▸ (Chip.of_requested hk).2.2
    · cases h

theorem cause_answered_lt : p.cause.answered < 16 := by
  cases h : p.cause with
  | line i =>
    show i < 16
    obtain ⟨hi, -⟩ | ⟨-, hi, -⟩ := cause_line h <;> omega
  | ghostMaster => decide
  | ghostSlave => decide

section frame

/-- Everything of a chip but its requests. -/
def heldBy (c : Chip) : Chip.Setup × BitVec 8 × BitVec 8 := (c.setup, c.isr, c.imr)

/-- Everything but the requests: what the lines cannot change. -/
def held (p : Pair) : (Chip.Setup × BitVec 8 × BitVec 8) × (Chip.Setup × BitVec 8 × BitVec 8) :=
  (heldBy p.master, heldBy p.slave)

variable {i : ℕ}

@[simp] theorem raise_held : (p.raise i).held = p.held := by
  unfold raise
  split <;> rfl

@[simp] theorem lower_held : (p.lower i).held = p.held := by
  unfold lower
  split <;> rfl

@[simp] theorem settle_held : p.settle.held = p.held := by
  unfold settle
  cases p.slave.int <;> rfl

theorem Quiet.of_held {q : Pair} (h : p.Quiet) (hq : q.held = p.held) : q.Quiet := by
  simp only [held, heldBy, Prod.mk.injEq] at hq
  exact ⟨hq.1.2.1.trans h.1, hq.2.2.1.trans h.2⟩

theorem settle_irr_wire : p.settle.master.irr.getLsbD wire = p.slave.int := by
  unfold settle
  cases p.slave.int
  · exact getLsbD_clearLine.trans (by simp)
  · exact getLsbD_setLine.trans (by simp [wire])

theorem settle_irr {k : ℕ} (hk : k ≠ wire) :
    p.settle.master.irr.getLsbD k = p.master.irr.getLsbD k := by
  unfold settle
  cases p.slave.int <;> simp [hk.symm]

end frame

end Pair

end StarOs.Library.I8259
