import StarOs.Arch.IoApic

/-! Runs of the I/O APIC's driver: when an entry is live while it is half programmed, and the
array of redirections the chip is once it is masked. -/

namespace StarOs.Arch

namespace Redirection

/-- What the low half says of the line. -/
def line (e : Redirection) : UInt8 × Bool × Bool := (e.vector, e.activeLow, e.levelTriggered)

/-- How a live entry delivers. -/
def routing (e : Redirection) : (UInt8 × Bool × Bool) × UInt8 := (e.line, e.destination)

/-- The way from one to the other leads over no third: nothing is live on it, or there is only
one half to change. -/
def Smooth (old new : Redirection) : Prop :=
  old.masked = true ∨ old.destination = new.destination ∨ old.line = new.line

/-- Halfway there the entry has its old line and the new destination. -/
theorem half_iff (old new : Redirection) :
    (old.masked = false → ({ old with destination := new.destination } : Redirection).routing = old.routing ∨
      ({ old with destination := new.destination } : Redirection).routing = new.routing) ↔
      Smooth old new := by
  unfold Smooth
  have hold : ({ old with destination := new.destination } : Redirection).routing = old.routing ↔
      old.destination = new.destination := by
    change (old.line, new.destination) = (old.line, old.destination) ↔ _
    rw [Prod.mk.injEq]
    exact ⟨fun h => h.2.symm, fun h => ⟨rfl, h.symm⟩⟩
  have hnew : ({ old with destination := new.destination } : Redirection).routing = new.routing ↔
      old.line = new.line := by
    change (old.line, new.destination) = (new.line, new.destination) ↔ _
    rw [Prod.mk.injEq]
    exact ⟨fun h => h.1, fun h => ⟨h, rfl⟩⟩
  rw [hold, hnew]
  cases old.masked <;> simp

end Redirection

inductive Call where
  | setRedirection (gsi : UInt32) (entry : Redirection)
  | setMasked (gsi : UInt32) (masked : Bool)
  | maskAll

namespace Call

open IoApic Redirection

/-- The driver at the start of a call. -/
def fresh (io : IoApic) : IoApic := { io with writes := [] }

/-- The call; none where it panics. -/
def perform (call : Call) (io : IoApic) : Option Unit × IoApic :=
  match call with
  | .setRedirection gsi entry => (fresh io).setRedirection gsi entry
  | .setMasked gsi masked => (fresh io).setMasked gsi masked
  | .maskAll => (fresh io).maskAll

/-- What the call asks the entry at `i` to be. -/
def requested (call : Call) (io : IoApic) (i : ℕ) : Redirection :=
  match call with
  | .setRedirection gsi entry => if i = io.indexOf gsi then entry else entryOf io.chip.regs i
  | .setMasked gsi masked =>
    if i = io.indexOf gsi then { entryOf io.chip.regs i with masked := masked }
    else entryOf io.chip.regs i
  | .maskAll => blank

/-- These registers hold no live entry that is neither what it was before the call nor what the
call asks for. -/
def WholeAt (call : Call) (io : IoApic) (regs : UInt32 → UInt32) : Prop :=
  ∀ i < io.count, (entryOf regs i).masked = false →
    (entryOf regs i).routing = (entryOf io.chip.regs i).routing ∨
      (entryOf regs i).routing = (call.requested io i).routing

/-- Nor do they after any write of the call. -/
def Whole (call : Call) (io : IoApic) : Prop :=
  ∀ regs ∈ (call.perform io).2.images, call.WholeAt io regs

/-- The entries the call rewrites are masked, or change in one half only. -/
def Gentle (call : Call) (io : IoApic) : Prop :=
  match call with
  | .setRedirection gsi entry =>
    io.Covered gsi → Smooth (entryOf io.chip.regs (io.indexOf gsi)) entry
  | .setMasked _ _ => True
  | .maskAll => ∀ i < io.reach, Smooth (entryOf io.chip.regs i) blank

section

variable {call : Call} {io : IoApic} {gsi : UInt32} {entry : Redirection}

theorem covered_fresh : (fresh io).Covered gsi ↔ io.Covered gsi :=
  ⟨fun h => ⟨h.ge, h.lt, h.fits⟩, fun h => ⟨h.ge, h.lt, h.fits⟩⟩

theorem index_lt {i : ℕ} (hi : i < io.count) : i < 256 := Nat.lt_of_lt_of_le hi (countOf_le _)

theorem wholeAt_before (call : Call) (io : IoApic) : call.WholeAt io io.chip.regs :=
  fun _ _ _ => .inl rfl

theorem wholeAt_requested {regs : UInt32 → UInt32}
    (h : ∀ i < io.count, entryOf regs i = call.requested io i) : call.WholeAt io regs := by
  intro i hi _
  exact .inr (by rw [h i hi])

/-- Once its high half is written, an entry is what `half_iff` is about. -/
theorem wholeAt_half {regs : UInt32 → UInt32} {j : ℕ} {value : UInt32} (hj : j < io.count)
    (hbefore : entryOf regs j = entryOf io.chip.regs j) (hregs : call.WholeAt io regs)
    (hvalue : (value >>> 24).toUInt8 = (call.requested io j).destination) :
    call.WholeAt io (Function.update regs (high j) value) ↔
      Smooth (entryOf io.chip.regs j) (call.requested io j) := by
  have hat : entryOf (Function.update regs (high j) value) j =
      { entryOf io.chip.regs j with destination := (call.requested io j).destination } := by
    rw [entryOf_update_high (index_lt hj) (index_lt hj), if_pos rfl, hbefore, hvalue]
  rw [← half_iff]
  constructor
  · intro h hlive
    have := h j hj
    rw [hat] at this
    exact this hlive
  · intro h i hi hlive
    by_cases heq : i = j
    · subst heq
      rw [hat] at hlive ⊢
      exact h hlive
    · rw [entryOf_update_high (index_lt hi) (index_lt hj), if_neg heq] at hlive ⊢
      exact hregs i hi hlive

/-- Only the write of the high half can leave an entry live and half programmed. -/
theorem setRedirection_whole_iff :
    (Call.setRedirection gsi entry).Whole io ↔ (Call.setRedirection gsi entry).Gentle io := by
  by_cases hcov : io.Covered gsi
  · have hj := hcov.index_lt_256
    have hrequested : (Call.setRedirection gsi entry).requested io (io.indexOf gsi) = entry := if_pos rfl
    have hperform : ((Call.setRedirection gsi entry).perform io).2.images = [io.chip.regs, io.chip.regs,
        Function.update io.chip.regs (high (io.indexOf gsi)) entry.highBits,
        Function.update io.chip.regs (high (io.indexOf gsi)) entry.highBits,
        Function.update (Function.update io.chip.regs (high (io.indexOf gsi)) entry.highBits)
          (low (io.indexOf gsi)) entry.lowBits] := by
      rw [perform, setRedirection_eq (covered_fresh.mpr hcov)]
      simp only [writeReg_images, selecting_images, writeReg_regs, selecting_regs]
      rfl
    have hdone : (Call.setRedirection gsi entry).WholeAt io
        (Function.update (Function.update io.chip.regs (high (io.indexOf gsi)) entry.highBits)
          (low (io.indexOf gsi)) entry.lowBits) := by
      refine wholeAt_requested fun i hi => ?_
      rw [entryOf_update_low (index_lt hi) hj, entryOf_update_high (index_lt hi) hj, requested]
      by_cases heq : i = io.indexOf gsi
      · rw [if_pos heq, if_pos heq, if_pos heq, highBits_destination]
      · rw [if_neg heq, if_neg heq, if_neg heq]
    have hhalf : (Call.setRedirection gsi entry).WholeAt io
        (Function.update io.chip.regs (high (io.indexOf gsi)) entry.highBits) ↔
        Smooth (entryOf io.chip.regs (io.indexOf gsi)) entry := by
      rw [wholeAt_half hcov.index_lt rfl (wholeAt_before _ io), hrequested]
      rw [hrequested, highBits_destination]
    rw [Whole, hperform, Gentle]
    simp only [List.forall_mem_cons, wholeAt_before, hhalf, hdone, true_and, and_true, and_self, hcov,
      forall_const, List.not_mem_nil, false_imp_iff]
  · have hperform : ((Call.setRedirection gsi entry).perform io).2.images = [io.chip.regs] := by
      rw [perform, setRedirection_not (mt covered_fresh.mp hcov), selecting_images]
      rfl
    rw [Whole, hperform]
    simp only [List.forall_mem_cons, wholeAt_before, Gentle, hcov, false_imp_iff, true_and,
      List.not_mem_nil, forall_const]

/-- Masking writes the low half only. -/
theorem setMasked_whole (masked : Bool) : (Call.setMasked gsi masked).Whole io := by
  by_cases hcov : io.Covered gsi
  · have hj := hcov.index_lt_256
    have hperform : ((Call.setMasked gsi masked).perform io).2.images = [io.chip.regs, io.chip.regs,
        io.chip.regs, io.chip.regs, Function.update io.chip.regs (low (io.indexOf gsi))
          { entryOf io.chip.regs (io.indexOf gsi) with masked := masked }.lowBits] := by
      rw [perform, setMasked_eq (covered_fresh.mpr hcov)]
      simp only [writeReg_images, selecting_images, selecting_regs]
      rfl
    have hdone : (Call.setMasked gsi masked).WholeAt io (Function.update io.chip.regs
        (low (io.indexOf gsi)) { entryOf io.chip.regs (io.indexOf gsi) with masked := masked }.lowBits) := by
      refine wholeAt_requested fun i hi => ?_
      rw [entryOf_update_low (index_lt hi) hj, requested]
      by_cases heq : i = io.indexOf gsi
      · rw [if_pos heq, if_pos heq, heq]
      · rw [if_neg heq, if_neg heq]
    rw [Whole, hperform]
    simp only [List.forall_mem_cons, wholeAt_before, hdone, true_and, List.not_mem_nil, false_imp_iff,
      forall_const]
  · have hperform : ((Call.setMasked gsi masked).perform io).2.images = [io.chip.regs] := by
      rw [perform, setMasked_not (mt covered_fresh.mp hcov), selecting_images]
      rfl
    rw [Whole, hperform]
    simp only [List.forall_mem_cons, wholeAt_before, true_and, List.not_mem_nil, false_imp_iff,
      forall_const]

/-- The entries `mask_all` is through with are masked, and the others are as they were. -/
theorem wholeAt_blanked {k : ℕ} (hk : k ≤ 256) : Call.maskAll.WholeAt io (blanked io.chip.regs k) := by
  intro i hi hlive
  rw [entryOf_blanked (index_lt hi) hk] at hlive ⊢
  split
  · next hlt =>
    rw [if_pos hlt] at hlive
    cases hlive
  · exact .inl rfl

theorem reach_le (io : IoApic) : io.reach ≤ io.count := Nat.min_le_left _ _

/-- And one it is halfway through with may be live. -/
theorem maskAll_whole_iff : Call.maskAll.Whole io ↔ Call.maskAll.Gentle io := by
  obtain ⟨io', hrun, -, -, himages, -⟩ := maskAll_spec (fresh io)
  have hperform : (Call.maskAll.perform io).2.images =
      io.chip.regs :: (List.range io.reach).flatMap (blanking io.chip.regs) := by
    rw [perform, hrun]
    exact himages
  have hreach : ∀ k < io.reach, k < io.count := fun k hk => Nat.lt_of_lt_of_le hk (reach_le io)
  have hhalf : ∀ k < io.reach, Call.maskAll.WholeAt io
      (Function.update (blanked io.chip.regs k) (high k) 0) ↔ Smooth (entryOf io.chip.regs k) blank := by
    intro k hk
    have hk256 := index_lt (hreach k hk)
    refine wholeAt_half (hreach k hk) ?_ (wholeAt_blanked (Nat.le_of_lt hk256)) rfl
    rw [entryOf_blanked hk256 (Nat.le_of_lt hk256), if_neg (Nat.lt_irrefl k)]
  rw [Whole, hperform]
  constructor
  · intro h k hk
    refine (hhalf k hk).mp (h _ (List.mem_cons_of_mem _ (List.mem_flatMap.mpr ⟨k, List.mem_range.mpr hk, ?_⟩)))
    exact List.mem_cons_of_mem _ List.mem_cons_self
  · intro h regs hregs
    obtain rfl | hregs := List.mem_cons.mp hregs
    · exact wholeAt_before _ io
    · obtain ⟨k, hk, hregs⟩ := List.mem_flatMap.mp hregs
      have hk := List.mem_range.mp hk
      have hk256 := index_lt (hreach k hk)
      have hdone := (hhalf k hk).mpr (h k hk)
      simp only [blanking, List.mem_cons, List.not_mem_nil, or_false] at hregs
      obtain rfl | rfl | rfl | rfl := hregs
      · exact wholeAt_blanked (Nat.le_of_lt hk256)
      · exact hdone
      · exact hdone
      · exact wholeAt_blanked hk256

/-- A call leaves no entry live and half programmed exactly when it is gentle. -/
theorem whole_iff (call : Call) (io : IoApic) : call.Whole io ↔ call.Gentle io := by
  cases call with
  | setRedirection gsi entry => exact setRedirection_whole_iff
  | setMasked gsi masked => exact iff_of_true (setMasked_whole masked) trivial
  | maskAll => exact maskAll_whole_iff

end

/-- The calls of a run, each with the driver before it; a panic ends the run. -/
def history : List Call → IoApic → List (Call × IoApic)
  | [], _ => []
  | call :: rest, io =>
    (call, io) ::
      match call.perform io with
      | (some (), io) => history rest io
      | (none, _) => []

/-- In a run from any registers, no entry is live and half programmed after any write exactly
when no call of it rewrites both halves of a live entry to something else. -/
theorem never_half_programmed_iff (calls : List Call) (io : IoApic) :
    (∀ step ∈ history calls io, step.1.Whole step.2) ↔
      ∀ step ∈ history calls io, step.1.Gentle step.2 :=
  forall₂_congr fun step _ => whole_iff step.1 step.2

/-- Two entries, the second of them live as the firmware left it: vector 0x30 to core 1. -/
def firmwareLeft : IoApic where
  chip := {
    select := 0
    regs := fun index => if index = 0x01 then 0x00010011 else if index = 0x12 then 0x30
      else if index = 0x13 then 0x01000000 else 0x10000 }
  gsiBase := 0
  writes := []

/-- Masking it delivers vector 0x30 to core 0 for a while, as does giving it another vector and
core 2 to core 2. -/
theorem live_half_programmed :
    (∃ regs ∈ (Call.maskAll.perform firmwareLeft).2.images,
      entryOf regs 1 = ⟨0x30, 0, false, false, false⟩) ∧
    (∃ regs ∈ ((Call.setRedirection 1 ⟨0x31, 2, false, false, false⟩).perform firmwareLeft).2.images,
      entryOf regs 1 = ⟨0x30, 2, false, false, false⟩) ∧
    entryOf firmwareLeft.chip.regs 1 = ⟨0x30, 1, false, false, false⟩ ∧
    ¬Call.maskAll.Whole firmwareLeft ∧
    ¬(Call.setRedirection 1 ⟨0x31, 2, false, false, false⟩).Whole firmwareLeft := by
  have hany : ∀ {l : List (UInt32 → UInt32)} {e : Redirection},
      l.any (fun regs => entryOf regs 1 = e) = true → ∃ regs ∈ l, entryOf regs 1 = e := by
    intro l e h
    obtain ⟨regs, hmem, he⟩ := List.any_eq_true.mp h
    exact ⟨regs, hmem, of_decide_eq_true he⟩
  refine ⟨hany (by decide +kernel), hany (by decide +kernel), by decide +kernel, ?_, ?_⟩
  · rw [whole_iff]
    intro h
    have hsmooth := h 1 (by decide +kernel)
    revert hsmooth
    unfold Smooth
    decide +kernel
  · rw [whole_iff]
    intro h
    have hsmooth := h ⟨by decide +kernel, by decide +kernel, by decide +kernel⟩
    revert hsmooth
    unfold Smooth
    decide +kernel

end Call

/-! ### The array of redirections -/

/-- The calls on one line. -/
inductive Op where
  | setRedirection (gsi : UInt32) (entry : Redirection)
  | setMasked (gsi : UInt32) (masked : Bool)
  | redirection (gsi : UInt32)

namespace Op

open IoApic

def gsi : Op → UInt32
  | .setRedirection gsi _ => gsi
  | .setMasked gsi _ => gsi
  | .redirection gsi => gsi

/-- The call on the chip, and what it answers; none where it panics. -/
def perform : Op → IoApic → Option (Option Redirection) × IoApic
  | .setRedirection gsi entry, io =>
    let (done, io) := io.setRedirection gsi entry
    (done.map fun _ => none, io)
  | .setMasked gsi masked, io =>
    let (done, io) := io.setMasked gsi masked
    (done.map fun _ => none, io)
  | .redirection gsi, io =>
    let (entry, io) := io.redirection gsi
    (entry.map some, io)

/-- One call after another, and the answers. -/
def performAll : List Op → IoApic → Option (List (Option Redirection)) × IoApic
  | [], io => (some [], io)
  | op :: rest, io =>
    match op.perform io with
    | (none, io) => (none, io)
    | (some answer, io) =>
      let (answers, io) := performAll rest io
      (answers.map (answer :: ·), io)

/-- The same call on an array with an entry for each GSI. -/
def apply (table : UInt32 → Redirection) : Op → UInt32 → Redirection
  | .setRedirection gsi entry => Function.update table gsi entry
  | .setMasked gsi masked => Function.update table gsi { table gsi with masked := masked }
  | .redirection _ => table

def answer (table : UInt32 → Redirection) : Op → Option Redirection
  | .setRedirection _ _ => none
  | .setMasked _ _ => none
  | .redirection gsi => some (table gsi)

def applyAll : List Op → (UInt32 → Redirection) → UInt32 → Redirection
  | [], table => table
  | op :: rest, table => applyAll rest (op.apply table)

def answerAll : List Op → (UInt32 → Redirection) → List (Option Redirection)
  | [], _ => []
  | op :: rest, table => op.answer table :: answerAll rest (op.apply table)

/-- The chip holds the array: the entry of each GSI it covers is the one there. -/
structure Holds (io : IoApic) (table : UInt32 → Redirection) : Prop where
  fits : io.gsiBase.toNat + io.count < 2 ^ 32
  entry : ∀ gsi, io.Covered gsi → entryOf io.chip.regs (io.indexOf gsi) = table gsi

/-- A run so far on a controller of `n` entries has written no register but theirs. -/
structure Confined (n : ℕ) (base : UInt32) (io : IoApic) : Prop where
  count : io.count = n
  gsiBase : io.gsiBase = base
  written : ∀ r ∈ io.written, 0x10 ≤ r.toNat ∧ r.toNat < 0x10 + 2 * n

section

variable {io io' : IoApic} {table : UInt32 → Redirection} {op : Op} {gsi gsi' : UInt32}
  {entry : Redirection} {n : ℕ} {base : UInt32}

theorem covered_congr (hcount : io'.count = io.count) (hbase : io'.gsiBase = io.gsiBase) :
    io'.Covered gsi ↔ io.Covered gsi := by
  have hiff : ∀ {a b : IoApic}, a.count = b.count → a.gsiBase = b.gsiBase → a.Covered gsi → b.Covered gsi :=
    fun hc hb h => ⟨hb ▸ h.ge, hc ▸ hb ▸ h.lt, hc ▸ hb ▸ h.fits⟩
  exact ⟨hiff hcount hbase, hiff hcount.symm hbase.symm⟩

/-- Two GSIs of one controller have different entries. -/
theorem indexOf_inj (h : io.Covered gsi) (h' : io.Covered gsi') :
    io.indexOf gsi = io.indexOf gsi' ↔ gsi = gsi' := by
  have hge := h.ge
  have hge' := h'.ge
  unfold indexOf
  rw [← UInt32.toNat_inj]
  omega

/-- A chip with one entry rewritten holds the array with that entry rewritten. -/
theorem Holds.update (h : Holds io table) (hcov : io.Covered gsi) (hcount : io'.count = io.count)
    (hbase : io'.gsiBase = io.gsiBase) (hentry : ∀ i < 256, entryOf io'.chip.regs i =
      if i = io.indexOf gsi then entry else entryOf io.chip.regs i) :
    Holds io' (Function.update table gsi entry) := by
  refine ⟨hcount ▸ hbase ▸ h.fits, fun gsi' hcov' => ?_⟩
  rw [covered_congr hcount hbase] at hcov'
  rw [show io'.indexOf gsi' = io.indexOf gsi' by rw [indexOf, hbase]; rfl, hentry _ hcov'.index_lt_256]
  by_cases heq : gsi' = gsi
  · rw [heq, if_pos rfl, Function.update_self]
  · rw [if_neg (mt (indexOf_inj hcov' hcov).mp heq), Function.update_of_ne heq]
    exact h.entry gsi' hcov'

theorem entry_regs_in {i : ℕ} (hi : i < n) (hle : n ≤ 256) :
    (0x10 ≤ (low i).toNat ∧ (low i).toNat < 0x10 + 2 * n) ∧
      0x10 ≤ (high i).toNat ∧ (high i).toNat < 0x10 + 2 * n := by
  rw [toNat_low (by omega), toNat_high (by omega)]
  omega

theorem Confined.more {l : List UInt32} (h : Confined n base io) (hcount : io'.count = io.count)
    (hbase : io'.gsiBase = io.gsiBase) (hwritten : io'.written = io.written ++ l)
    (hl : ∀ r ∈ l, 0x10 ≤ r.toNat ∧ r.toNat < 0x10 + 2 * n) : Confined n base io' := by
  refine ⟨hcount.trans h.count, hbase.trans h.gsiBase, fun r hr => ?_⟩
  rw [hwritten] at hr
  obtain hr | hr := List.mem_append.mp hr
  · exact h.written r hr
  · exact hl r hr

/-- A call on a covered GSI answers as the array does, and leaves it as the array is left. -/
theorem perform_spec (h : Holds io table) (hconf : Confined n base io) (hcov : io.Covered op.gsi) :
    ∃ io', op.perform io = (some (op.answer table), io') ∧ Holds io' (op.apply table) ∧
      Confined n base io' := by
  have hin : ∀ {gsi : UInt32}, io.Covered gsi → _ := fun hcov =>
    hconf.count ▸ entry_regs_in hcov.index_lt (countOf_le io.chip.regs)
  cases op with
  | setRedirection gsi entry =>
    have hcov : io.Covered gsi := hcov
    have hj := hcov.index_lt_256
    obtain ⟨hlow, hhigh⟩ := hin hcov
    have hcount : (((io.selecting ioapicRegVersion).writeReg (high (io.indexOf gsi))
        entry.highBits).writeReg (low (io.indexOf gsi)) entry.lowBits).count = io.count := by
      rw [IoApic.count, writeReg_regs, writeReg_regs, (countOf_update hj _).2, (countOf_update hj _).1]
      rfl
    refine ⟨_, by rw [perform, setRedirection_eq hcov]; rfl, h.update hcov hcount rfl fun i hi => ?_,
      hconf.more (l := [high (io.indexOf gsi), low (io.indexOf gsi)]) hcount rfl ?_ ?_⟩
    · rw [writeReg_regs, writeReg_regs, selecting_regs, entryOf_update_low hi hj,
        entryOf_update_high hi hj]
      by_cases heq : i = io.indexOf gsi
      · rw [if_pos heq, if_pos heq, if_pos heq, Redirection.highBits_destination]
      · rw [if_neg heq, if_neg heq, if_neg heq]
    · rw [writeReg_written, writeReg_written, selecting_written, List.append_assoc]
      rfl
    · intro r hr
      obtain rfl | rfl : r = high (io.indexOf gsi) ∨ r = low (io.indexOf gsi) := by simpa using hr
      · exact hhigh
      · exact hlow
  | setMasked gsi masked =>
    have hcov : io.Covered gsi := hcov
    have hj := hcov.index_lt_256
    obtain ⟨hlow, -⟩ := hin hcov
    have hcount : ((((io.selecting ioapicRegVersion).selecting (low (io.indexOf gsi))).selecting
        (high (io.indexOf gsi))).writeReg (low (io.indexOf gsi))
          { entryOf io.chip.regs (io.indexOf gsi) with masked := masked }.lowBits).count = io.count := by
      rw [IoApic.count, writeReg_regs, (countOf_update hj _).2]
      rfl
    have hentry : entryOf io.chip.regs (io.indexOf gsi) = table gsi := h.entry gsi hcov
    refine ⟨_, by rw [perform, setMasked_eq hcov]; rfl, h.update hcov hcount rfl fun i hi => ?_,
      hconf.more (l := [low (io.indexOf gsi)]) hcount rfl ?_ ?_⟩
    · rw [writeReg_regs, selecting_regs, selecting_regs, selecting_regs, entryOf_update_low hi hj]
      by_cases heq : i = io.indexOf gsi
      · rw [if_pos heq, if_pos heq, heq, ← hentry]
      · rw [if_neg heq, if_neg heq]
    · rw [writeReg_written, selecting_written, selecting_written, selecting_written]
    · intro r hr
      rw [List.mem_singleton.mp hr]
      exact hlow
  | redirection gsi =>
    have hcov : io.Covered gsi := hcov
    have hentry : entryOf io.chip.regs (io.indexOf gsi) = table gsi := h.entry gsi hcov
    refine ⟨((io.selecting ioapicRegVersion).selecting (low (io.indexOf gsi))).selecting
      (high (io.indexOf gsi)), by rw [perform, redirection_eq hcov, hentry]; rfl,
      ⟨h.fits, fun gsi' hcov' => h.entry gsi' ⟨hcov'.ge, hcov'.lt, hcov'.fits⟩⟩,
      hconf.more (l := []) rfl rfl ?_ (by simp)⟩
    rw [selecting_written, selecting_written, selecting_written, List.append_nil]

/-- And so do the calls of a whole run. -/
theorem performAll_spec (ops : List Op) (h : Holds io table) (hconf : Confined n base io)
    (hops : ∀ op ∈ ops, io.Covered op.gsi) :
    ∃ io', performAll ops io = (some (answerAll ops table), io') ∧ Holds io' (applyAll ops table) ∧
      Confined n base io' := by
  induction ops generalizing io table with
  | nil => exact ⟨io, rfl, h, hconf⟩
  | cons op rest ih =>
    obtain ⟨io', hrun, h', hconf'⟩ := perform_spec h hconf (hops op List.mem_cons_self)
    have hrest : ∀ op ∈ rest, io'.Covered op.gsi := fun op hmem =>
      (covered_congr (hconf'.count.trans hconf.count.symm)
        (hconf'.gsiBase.trans hconf.gsiBase.symm)).mpr (hops op (List.mem_cons_of_mem _ hmem))
    obtain ⟨io'', hrun', h'', hconf''⟩ := ih h' hconf' hrest
    refine ⟨io'', ?_, h'', hconf''⟩
    rw [performAll, hrun]
    dsimp only
    rw [hrun']
    rfl

/-- Once it is masked, the chip holds the array of blank entries. -/
theorem maskAll_holds (hwritten : io.written = []) (hfits : io.gsiBase.toNat + io.count < 2 ^ 32) :
    ∃ io', io.maskAll = (some (), io') ∧ Holds io' (fun _ => Redirection.blank) ∧
      Confined io.count io.gsiBase io' := by
  have hle : io.count ≤ 256 := countOf_le _
  have hreach : io.reach = io.count := by
    unfold reach
    omega
  obtain ⟨io', hrun, hregs, hbase, -, hwritten'⟩ := maskAll_spec io
  rw [if_pos hreach] at hrun
  rw [hreach] at hregs hwritten'
  have hcount : io'.count = io.count := by
    rw [IoApic.count, hregs, countOf_blanked hle]
    rfl
  refine ⟨io', hrun, ⟨hcount ▸ hbase ▸ hfits, fun gsi hcov => ?_⟩, hcount, hbase, fun r hr => ?_⟩
  · have hlt := hcov.index_lt
    rw [hregs, entryOf_blanked hcov.index_lt_256 hle, if_pos (hcount ▸ hlt)]
  · rw [hwritten', hwritten, List.nil_append] at hr
    obtain ⟨i, hi, hr⟩ := List.mem_flatMap.mp hr
    obtain ⟨hlow, hhigh⟩ := entry_regs_in (List.mem_range.mp hi) hle
    obtain rfl | rfl : r = high i ∨ r = low i := by simpa using hr
    · exact hhigh
    · exact hlow

end

end Op

/-- After `mask_all`, whatever the chip held before, any calls on lines it covers answer as calls
on an array of redirections would that starts out blank; and none of them, nor `mask_all`,
writes a register that is not a redirection entry's. -/
theorem refines_array (io : IoApic) (hfits : io.gsiBase.toNat + io.count ≤ 2 ^ 32 - 1) (ops : List Op)
    (hops : ∀ op ∈ ops, io.Covered op.gsi) :
    ∃ io₁ io₂, (Call.fresh io).maskAll = (some (), io₁) ∧
      Op.performAll ops io₁ = (some (Op.answerAll ops fun _ => Redirection.blank), io₂) ∧
      (∀ gsi, io.Covered gsi →
        (io₂.redirection gsi).1 = some (Op.applyAll ops (fun _ => Redirection.blank) gsi)) ∧
      ∀ r ∈ io₂.written, 0x10 ≤ r.toNat ∧ r.toNat < 0x10 + 2 * io.count := by
  obtain ⟨io₁, hmask, hholds, hconf⟩ := @Op.maskAll_holds (Call.fresh io) rfl
    (show io.gsiBase.toNat + io.count < 2 ^ 32 by omega)
  have hcov : ∀ {io' : IoApic} {gsi : UInt32}, Op.Confined io.count io.gsiBase io' →
      (io'.Covered gsi ↔ io.Covered gsi) := fun h => Op.covered_congr h.count h.gsiBase
  obtain ⟨io₂, hrun, hholds', hconf'⟩ := Op.performAll_spec ops hholds hconf
    fun op hmem => (hcov hconf).mpr (hops op hmem)
  refine ⟨io₁, io₂, hmask, hrun, fun gsi hgsi => ?_, hconf'.written⟩
  have hgsi' := (hcov hconf').mpr hgsi
  rw [IoApic.redirection_eq hgsi', hholds'.entry gsi hgsi']

/-- The second of two entries, programmed and masked again. -/
theorem refines_array_second : ∃ io₁ io₂, (Call.fresh Call.firmwareLeft).maskAll = (some (), io₁) ∧
    Op.performAll [.setRedirection 1 ⟨0x31, 2, true, false, false⟩, .setMasked 1 true,
      .redirection 1, .redirection 0] io₁ =
      (some [none, none, some ⟨0x31, 2, true, false, true⟩, some Redirection.blank], io₂) := by
  have hcov : ∀ gsi : UInt32, gsi.toNat < 2 → Call.firmwareLeft.Covered gsi := fun gsi hlt =>
    ⟨Nat.zero_le _, hlt, by decide +kernel⟩
  obtain ⟨io₁, io₂, hmask, hrun, -⟩ := refines_array Call.firmwareLeft (by decide +kernel)
    [.setRedirection 1 ⟨0x31, 2, true, false, false⟩, .setMasked 1 true, .redirection 1, .redirection 0]
    (by
      intro op hop
      refine hcov _ ?_
      simp only [List.mem_cons, List.not_mem_nil, or_false] at hop
      obtain rfl | rfl | rfl | rfl := hop <;> decide)
  exact ⟨io₁, io₂, hmask, hrun⟩

end StarOs.Arch
