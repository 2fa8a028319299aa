import Mathlib.Data.List.Pairwise
import StarOs.Kernel.Smp

/-! What a core finds when it arrives. The parameter block is right for a core from its
startup message to its last read of the block, as long as the boot processor does not turn
to the next core in between; nothing in the code makes it wait. -/

namespace StarOs.Kernel

/-- The loop of `start_cores` is running. -/
def Boot.looping : Boot → Bool
  | .staging | .done => false
  | _ => true

namespace Smp

/-- What bring-up promises of a state. -/
structure BroughtUp (k : Setup) (s : Smp) : Prop where
  /-- A core in `ap_entry` is on the kernel's tables, with its own id, on a stack given
  out for it and overlapping no other. -/
  entered : ∀ i, (s.core i).pc.inKernel → (s.core i).cr3 = k.root ∧
    (s.core i).rdi = i.toUInt32.toUInt64 ∧ ∃ base, (base, i) ∈ s.apStacks ∧
      (s.core i).rsp = apStackTop base - 8 ∧ ∀ p ∈ s.apStacks, p ≠ (base, i) → Apart base p.1
  counted : ∀ p ∈ s.counted, p.2 = some p.1
  mapped : s.strays = []

/-- Core `i` has still to read the block, or a startup message is on its way to it. -/
def Due (s : Smp) (i : UInt8) : Prop := (s.core i).pc.unread ∨ s.icr = some (.startup, i)

/-- No core is due, so the block may be written. -/
def Settled (s : Smp) : Prop := ∀ i, ¬s.Due i

/-- No core is in the page or on its way to it. -/
def Drained (s : Smp) : Prop := ∀ i, (s.core i).pc.onPage = false ∧ s.icr ≠ some (.startup, i)

/-- The condition on a step: the block is given to a core when no other is due, and the page
is unmapped when no core is in it. -/
def Timely (k : Setup) (s : Smp) : Act → Prop
  | .boot _ =>
    match s.boot with
    | .next [] => s.Drained
    | .next (id :: _) => k.target id ≠ none → s.Settled
    | _ => True
  | _ => True

/-- A stack pointer loaded from a block filled for core `i`. -/
def OwnTop (apStacks : List (UInt64 × UInt8)) (i : UInt8) (top : UInt64) : Prop :=
  top = 0 ∨ ∃ base, (base, i) ∈ apStacks ∧ top = apStackTop base

/-- The block is filled for core `i`. -/
structure SlotOf (apStacks : List (UInt64 × UInt8)) (i : UInt8) (p : Params) : Prop where
  id : p.cpuId = i.toUInt32.toUInt64
  top : OwnTop apStacks i p.stackTop

/-- What core `i` has loaded so far is right. -/
structure CoreOk (k : Setup) (apStacks : List (UInt64 × UInt8)) (i : UInt8) (c : Core) : Prop where
  cr3 : c.pc.paged ∨ c.pc = .paging ∨ c.pc.inKernel → c.cr3 = k.root
  top : c.pc ∈ [.writeAck, .loadId, .loadEntry, .call] → OwnTop apStacks i c.rsp
  stack : c.pc.inKernel → ∃ base, (base, i) ∈ apStacks ∧ c.rsp = apStackTop base - 8
  id : c.pc ∈ [.loadEntry, .call] ∨ c.pc.inKernel → c.rdi = i.toUInt32.toUInt64

/-- What the boot processor's place says about the block. -/
def Placed (s : Smp) : Boot → Prop
  | .staging => s.Drained
  | .naming id t _ => s.Settled ∧ id.toUInt64 = t.toUInt32.toUInt64 ∧
      OwnTop s.apStacks t s.params.stackTop
  | .clearing t _ => s.Settled ∧ SlotOf s.apStacks t s.params
  | .sending t _ _ | .sent t _ _ | .polling t _ _ =>
      SlotOf s.apStacks t s.params ∧ (s.params.ack ≠ 0 → s.ackBy = some t)
  | .next _ | .done => True

structure Sound (k : Setup) (s : Smp) : Prop where
  due : ∀ i, s.Due i → s.params.cr3 = k.root ∧ SlotOf s.apStacks i s.params
  placed : s.Placed s.boot
  looping : s.boot.looping → s.mapped = true ∧ s.params.cr3 = k.root
  page : s.mapped = true ∨ s.Drained
  core : ∀ i, CoreOk k s.apStacks i (s.core i)
  apart : s.apStacks.Pairwise fun p q => Apart p.1 q.1
  counted : ∀ p ∈ s.counted, p.2 = some p.1
  strays : s.strays = []

section Parts

variable {k : Setup} {s s' : Smp} {i : UInt8} {c : Core} {top : UInt64}
  {apStacks apStacks' : List (UInt64 × UInt8)}

theorem OwnTop.mono (h : OwnTop apStacks i top) (hsub : apStacks ⊆ apStacks') : OwnTop apStacks' i top := by
  obtain h | ⟨base, hmem, htop⟩ := h
  · exact .inl h
  · exact .inr ⟨base, hsub hmem, htop⟩

theorem CoreOk.mono (h : CoreOk k apStacks i c) (hsub : apStacks ⊆ apStacks') : CoreOk k apStacks' i c where
  cr3 := h.cr3
  top hpc := (h.top hpc).mono hsub
  stack hpc := by
    obtain ⟨base, hmem, htop⟩ := h.stack hpc
    exact ⟨base, hsub hmem, htop⟩
  id := h.id

/-- A core that has loaded nothing. -/
theorem CoreOk.blank (hpc : c.pc ∈ [.off, .waiting, .loadCr3, .faulted]) :
    CoreOk k apStacks i c := by
  simp only [List.mem_cons, List.not_mem_nil, or_false] at hpc
  constructor <;> intro h <;> rcases hpc with hpc | hpc | hpc | hpc <;>
    simp [hpc, CorePc.paged, CorePc.inKernel] at h

theorem toUInt64_inj {i j : UInt8} (h : i.toUInt32.toUInt64 = j.toUInt32.toUInt64) : i = j := by
  have hnat := congrArg UInt64.toNat h
  exact UInt8.toNat_inj.mp (by simpa using hnat)

theorem Drained.settled (h : s.Drained) : s.Settled := by
  rintro i (hpc | hicr)
  · have hoff := (h i).1
    cases hc : (s.core i).pc <;> simp [hc, CorePc.onPage, CorePc.unread] at hpc hoff
  · exact (h i).2 hicr

end Parts

namespace Sound

variable {k : Setup} {s s' : Smp} {i : UInt8} {c : Core}

/-- The boot processor moves on, and with it nothing but what it has counted. -/
theorem turn (h : Sound k s) (b : Boot) (counted : List (UInt8 × Option UInt8))
    (hplaced : s.Placed b) (hlive : b.looping → s.boot.looping)
    (hcounted : ∀ p ∈ counted, p.2 = some p.1) :
    Sound k { s with boot := b, counted := counted } where
  due := h.due
  placed := by cases b <;> exact hplaced
  looping hb := h.looping (hlive hb)
  page := h.page
  core := h.core
  apart := h.apart
  counted := hcounted
  strays := h.strays

/-- One core changes, and the command register is left alone or cleared. A core comes to
read the block, or into the page, only by the startup message that was on its way. -/
theorem atCore (h : Sound k s) {icr : Option (Command × UInt8)} (hicr : icr = s.icr ∨ icr = none)
    (hdue : c.pc.unread → s.Due i)
    (hpage : c.pc.onPage → (s.core i).pc.onPage ∨ s.icr = some (.startup, i))
    (hok : CoreOk k s.apStacks i c) : Sound k ({ s with icr := icr }.setCore i c) := by
  have hold : ∀ j, ({ s with icr := icr }.setCore i c).Due j → s.Due j := by
    rintro j (hpc | hsent)
    · by_cases hji : j = i
      · subst hji
        exact hdue (by simpa [setCore] using hpc)
      · exact .inl (by simpa [setCore, hji] using hpc)
    · obtain rfl | rfl := hicr
      · exact .inr hsent
      · cases hsent
  have hdrained : s.Drained → ({ s with icr := icr }.setCore i c).Drained := by
    intro hd j
    constructor
    · by_cases hji : j = i
      · subst hji
        have hno : ¬c.pc.onPage = true := by
          intro hon
          obtain hon | hsent := hpage hon
          · simp [(hd j).1] at hon
          · exact (hd j).2 hsent
        simpa [setCore] using hno
      · simpa [setCore, hji] using (hd j).1
    · obtain rfl | rfl := hicr
      · exact (hd j).2
      · simp [setCore]
  constructor
  · exact fun j hj => h.due j (hold j hj)
  · have hsettled : s.Settled → ({ s with icr := icr }.setCore i c).Settled :=
      fun hs j hj => hs j (hold j hj)
    have hplaced := h.placed
    change Placed _ s.boot
    cases hb : s.boot <;> rw [hb] at hplaced
    case staging => exact hdrained hplaced
    case naming => exact ⟨hsettled hplaced.1, hplaced.2⟩
    case clearing => exact ⟨hsettled hplaced.1, hplaced.2⟩
    all_goals exact hplaced
  · exact h.looping
  · exact h.page.imp_right hdrained
  · intro j
    by_cases hji : j = i
    · subst hji
      simpa [setCore] using hok
    · simpa [setCore, hji] using h.core j
  · exact h.apart
  · exact h.counted
  · exact h.strays

theorem start (k : Setup) : Sound k Smp.start where
  due i hd := by rcases hd with hd | hd <;> simp [Smp.start, Core.halted, CorePc.unread] at hd
  placed i := ⟨rfl, nofun⟩
  looping hb := by simp [Smp.start, Boot.looping] at hb
  page := .inr fun i => ⟨rfl, nofun⟩
  core i := .blank (by simp [Smp.start, Core.halted])
  apart := .nil
  counted := nofun
  strays := rfl

theorem stage (h : Sound k s) (hb : s.boot = .staging) (page window : Bool) :
    Sound k (s.stage k page window) := by
  have hdrained : s.Drained := by
    have hplaced := h.placed
    rwa [hb] at hplaced
  unfold Smp.stage
  split
  · exact h.turn .done s.counted trivial (by simp [Boot.looping]) h.counted
  · refine ⟨fun i hi => (hdrained.settled i hi).elim, ?_, ?_, .inr hdrained, h.core, h.apart,
      h.counted, h.strays⟩
    · cases page <;> cases window <;> trivial
    · intro hl
      cases page <;> cases window <;> simp [Boot.looping] at hl ⊢

/-- Storing into the block while no core is due. -/
theorem store (h : Sound k s) (hs : s.Settled) (hl : s.boot.looping) (b : Boot) (p : Params)
    (ackBy : Option UInt8) (hroot : p.cr3 = s.params.cr3)
    (hplaced : Placed { s with params := p, ackBy := ackBy } b) :
    Sound k { s with params := p, ackBy := ackBy, boot := b } where
  due i hi := (hs i hi).elim
  placed := by cases b <;> exact hplaced
  looping _ := ⟨(h.looping hl).1, hroot.trans (h.looping hl).2⟩
  page := h.page
  core := h.core
  apart := h.apart
  counted := h.counted
  strays := h.strays

theorem prepareSlot (h : Sound k s) (hs : s.Settled) (hl : s.boot.looping) {id : UInt32}
    {target : UInt8} (hid : k.target id = some target) (ids : List UInt32)
    {stack : Option UInt64} (hfresh : s.Fresh stack) :
    Sound k (s.prepareSlot id target ids stack) := by
  have hsub : s.apStacks ⊆ (stack.map (·, target)).toList ++ s.apStacks := List.subset_append_right _ _
  refine ⟨fun i hi => (hs i hi).elim, ⟨hs, ?_, ?_⟩, fun _ => h.looping hl, h.page,
    fun i => (h.core i).mono hsub, ?_, h.counted, h.strays⟩
  · unfold Setup.target at hid
    split at hid
    · next hlt =>
      obtain rfl := Option.some.inj hid
      apply UInt64.toNat_inj.mp
      rw [UInt32.toNat_toUInt64, UInt32.toNat_toUInt64, UInt8.toNat_toUInt32, UInt32.toNat_toUInt8,
        Nat.mod_eq_of_lt hlt.1]
    · cases hid
  · cases stack with
    | none => exact .inl rfl
    | some base => exact .inr ⟨base, by simp [Smp.prepareSlot], rfl⟩
  · cases stack with
    | none => exact h.apart
    | some base => exact List.pairwise_cons.mpr ⟨hfresh, h.apart⟩

theorem bootStep (h : Sound k s) (stack : Option UInt64) (ht : s.Timely k (.boot stack))
    (hs : s.bootStep k stack = some s') : Sound k s' := by
  have hplaced := h.placed
  unfold Smp.bootStep at hs
  unfold Timely at ht
  cases hb : s.boot <;> simp only [hb] at hs ht hplaced
  case staging => cases hs
  case done => cases hs
  case next ids =>
    have hl : s.boot.looping := by rw [hb]; rfl
    cases ids with
    | nil =>
      obtain rfl := Option.some.inj hs
      exact ⟨fun i hi => (ht.settled i hi).elim, trivial, nofun, .inr ht, h.core, h.apart,
        h.counted, h.strays⟩
    | cons id ids =>
      dsimp only at hs ht
      split at hs
      · obtain rfl := Option.some.inj hs
        exact h.turn (.next ids) s.counted trivial (fun _ => hl) h.counted
      · next target htarget =>
        split at hs
        · next hfresh =>
          obtain rfl := Option.some.inj hs
          exact h.prepareSlot (ht (by simp [htarget])) hl htarget ids hfresh
        · cases hs
  case naming id target ids =>
    obtain rfl := Option.some.inj hs
    obtain ⟨hsettled, hid, htop⟩ := hplaced
    exact h.store hsettled (by rw [hb]; rfl) _ _ s.ackBy rfl ⟨hsettled, hid, htop⟩
  case clearing target ids =>
    obtain rfl := Option.some.inj hs
    obtain ⟨hsettled, hslot⟩ := hplaced
    exact h.store hsettled (by rw [hb]; rfl) _ _ none rfl ⟨⟨hslot.id, hslot.top⟩, by simp⟩
  case sending target todo ids =>
    have hl : s.boot.looping := by rw [hb]; rfl
    cases todo with
    | nil =>
      obtain rfl := Option.some.inj hs
      exact h.turn (.polling target 200 ids) s.counted hplaced (fun _ => hl) h.counted
    | cons cmd todo =>
      dsimp only at hs
      split at hs
      · obtain rfl := Option.some.inj hs
        refine ⟨?_, hplaced, fun _ => h.looping hl, .inl (h.looping hl).1, h.core, h.apart,
          h.counted, h.strays⟩
        rintro i (hpc | hsent)
        · exact h.due i (.inl hpc)
        · obtain ⟨rfl, rfl⟩ : cmd = .startup ∧ target = i := by simpa using hsent
          exact ⟨(h.looping hl).2, hplaced.1⟩
      · cases hs
  case sent target todo ids =>
    split at hs
    · obtain rfl := Option.some.inj hs
      exact h.turn (.sending target todo ids) s.counted hplaced (by simp [hb, Boot.looping])
        h.counted
    · cases hs
  case polling target reads ids =>
    have hl : s.boot.looping := by rw [hb]; rfl
    cases reads with
    | zero =>
      obtain rfl := Option.some.inj hs
      exact h.turn (.next ids) s.counted trivial (fun _ => hl) h.counted
    | succ reads =>
      dsimp only at hs
      split at hs
      · next hack =>
        obtain rfl := Option.some.inj hs
        refine h.turn (.next ids) _ trivial (fun _ => hl) ?_
        intro p hp
        obtain rfl | hp := List.mem_cons.mp hp
        · exact hplaced.2 hack
        · exact h.counted p hp
      · obtain rfl := Option.some.inj hs
        exact h.turn (.polling target reads ids) s.counted hplaced (fun _ => hl) h.counted

theorem bootGivesUp (h : Sound k s) (hs : s.bootGivesUp = some s') : Sound k s' := by
  unfold Smp.bootGivesUp at hs
  split at hs
  · cases hs
  · split at hs
    · next hb =>
      obtain rfl := Option.some.inj hs
      exact h.turn (.next _) s.counted trivial (by simp [hb, Boot.looping]) h.counted
    · next hb =>
      obtain rfl := Option.some.inj hs
      exact h.turn (.next _) s.counted trivial (by simp [hb, Boot.looping]) h.counted
    · cases hs

theorem deliver (h : Sound k s) (missed : Bool) (hs : s.deliver missed = some s') :
    Sound k s' := by
  have hclear : Sound k { s with icr := none } := by
    have hc : ∀ t, Sound k ({ s with icr := none }.setCore t (s.core t)) := fun t =>
      h.atCore (.inr rfl) .inl .inl (h.core t)
    simpa [setCore] using hc 0
  unfold Smp.deliver at hs
  split at hs
  · cases hs
  · obtain rfl := Option.some.inj hs
    refine h.atCore (.inr rfl) ?_ ?_ (.blank (by simp [Core.reset]))
    all_goals simp [Core.reset, CorePc.unread, CorePc.onPage]
  · obtain rfl := Option.some.inj hs
    exact hclear
  · next t hicr =>
    split at hs
    · obtain rfl := Option.some.inj hs
      exact h.atCore (.inr rfl) (fun _ => .inr hicr) (fun _ => .inr hicr) (.blank (by simp))
    · obtain rfl := Option.some.inj hs
      exact hclear

/-- Core `i` acknowledges: it is the core the block is filled for. -/
theorem acknowledge (h : Sound k s) (hi : s.Due i) :
    Sound k { s with params := { s.params with ack := 1 }, ackBy := some i } where
  due j hj := ⟨(h.due j hj).1, (h.due j hj).2.id, (h.due j hj).2.top⟩
  placed := by
    have hplaced := h.placed
    have hslot := (h.due i hi).2
    change Placed _ s.boot
    cases hb : s.boot <;> rw [hb] at hplaced
    case staging => exact hplaced
    case next => trivial
    case done => trivial
    case naming => exact (hplaced.1 i hi).elim
    case clearing => exact (hplaced.1 i hi).elim
    all_goals
      have hti := toUInt64_inj (hslot.id.symm.trans hplaced.1.id)
      exact ⟨⟨hplaced.1.id, hplaced.1.top⟩, fun _ => congrArg some hti⟩
  looping := h.looping
  page := h.page
  core := h.core
  apart := h.apart
  counted := h.counted
  strays := h.strays

/-- One instruction of core `i`. The root has to fit the half of the word that is loaded. -/
theorem exec (h : Sound k s) (hroot : k.root.toNat < 2 ^ 32) (hs : s.exec k i = some s') :
    Sound k s' := by
  have hok := h.core i
  have hmapped : ((s.core i).pc.onPage && !s.mapped) = false := by
    obtain hm | hd := h.page
    · simp [hm]
    · simp [(hd i).1]
  simp only [Smp.exec, hmapped, Bool.false_eq_true, if_false] at hs
  cases hpc : (s.core i).pc <;> simp only [hpc] at hs
  case off | waiting | parked | faulted => cases hs
  case loadCr3 =>
    have hdue : s.Due i := .inl (by simp [hpc, CorePc.unread])
    obtain rfl := Option.some.inj hs
    refine h.atCore (.inl rfl) (fun _ => hdue) (by simp [hpc, CorePc.onPage, CorePc.unread]) ?_
    refine ⟨fun _ => ?_, by simp, by simp [CorePc.inKernel], by simp [CorePc.inKernel]⟩
    apply UInt64.toNat_inj.mp
    rw [UInt32.toNat_toUInt64, UInt64.toNat_toUInt32, (h.due i hdue).1, Nat.mod_eq_of_lt hroot]
  case paging =>
    obtain rfl := Option.some.inj hs
    refine h.atCore (.inl rfl) (fun _ => .inl (by simp [hpc, CorePc.unread]))
      (by simp [hpc, CorePc.onPage, CorePc.unread]) ?_
    exact ⟨fun _ => hok.cr3 (by simp [hpc]), by simp, by simp [CorePc.inKernel],
      by simp [CorePc.inKernel]⟩
  case loadStack =>
    have hdue : s.Due i := .inl (by simp [hpc, CorePc.unread])
    obtain rfl := Option.some.inj hs
    refine h.atCore (.inl rfl) (fun _ => hdue) (by simp [hpc, CorePc.onPage, CorePc.unread]) ?_
    exact ⟨fun _ => hok.cr3 (by simp [hpc, CorePc.paged]), fun _ => (h.due i hdue).2.top,
      by simp [CorePc.inKernel], by simp [CorePc.inKernel]⟩
  case writeAck =>
    have hdue : s.Due i := .inl (by simp [hpc, CorePc.unread])
    obtain rfl := Option.some.inj hs
    refine (h.acknowledge hdue).atCore (.inl rfl) (fun _ => hdue)
      (by simp [hpc, CorePc.onPage, CorePc.unread]) ?_
    exact ⟨fun _ => hok.cr3 (by simp [hpc, CorePc.paged]), fun _ => hok.top (by simp [hpc]),
      by simp [CorePc.inKernel], by simp [CorePc.inKernel]⟩
  case loadId =>
    have hdue : s.Due i := .inl (by simp [hpc, CorePc.unread])
    obtain rfl := Option.some.inj hs
    refine h.atCore (.inl rfl) (fun _ => hdue) (by simp [hpc, CorePc.onPage, CorePc.unread]) ?_
    exact ⟨fun _ => hok.cr3 (by simp [hpc, CorePc.paged]), fun _ => hok.top (by simp [hpc]),
      by simp [CorePc.inKernel], fun _ => (h.due i hdue).2.id⟩
  case loadEntry =>
    obtain rfl := Option.some.inj hs
    refine h.atCore (.inl rfl) (by simp [CorePc.unread]) (by simp [hpc, CorePc.onPage]) ?_
    exact ⟨fun _ => hok.cr3 (by simp [hpc, CorePc.paged]), fun _ => hok.top (by simp [hpc]),
      by simp [CorePc.inKernel], fun _ => hok.id (by simp [hpc])⟩
  case call =>
    split at hs
    · next hcall =>
      obtain rfl := Option.some.inj hs
      refine h.atCore (.inl rfl) (by simp [CorePc.unread])
        (by simp [CorePc.onPage, CorePc.unread]) ?_
      refine ⟨fun _ => hok.cr3 (by simp [hpc, CorePc.paged]), by simp, fun _ => ?_,
        fun _ => hok.id (by simp [hpc])⟩
      obtain hzero | ⟨base, hmem, htop⟩ := hok.top (by simp [hpc])
      · exact absurd hzero hcall.1
      · exact ⟨base, hmem, congrArg (· - 8) htop⟩
    · obtain rfl := Option.some.inj hs
      exact h.atCore (.inl rfl) (by simp [CorePc.unread])
        (by simp [CorePc.onPage, CorePc.unread]) (.blank (by simp))
  case entered =>
    obtain rfl := Option.some.inj hs
    have hadd : Sound k { s with
        rollCall := s.rollCall + ((s.core i).rdi + 1), online := s.online + 1 } :=
      ⟨h.due, h.placed, h.looping, h.page, h.core, h.apart, h.counted, h.strays⟩
    refine hadd.atCore (.inl rfl) (by simp [CorePc.unread])
      (by simp [CorePc.onPage, CorePc.unread]) ?_
    exact ⟨fun _ => hok.cr3 (by simp [hpc, CorePc.inKernel]), by simp,
      fun _ => hok.stack (by simp [hpc, CorePc.inKernel]),
      fun _ => hok.id (by simp [hpc, CorePc.inKernel])⟩

theorem faults (h : Sound k s) (hs : s.faults k i = some s') : Sound k s' := by
  unfold Smp.faults at hs
  split at hs
  · obtain rfl := Option.some.inj hs
    exact h.atCore (.inl rfl) (by simp [CorePc.unread])
      (by simp [CorePc.onPage, CorePc.unread]) (.blank (by simp))
  · cases hs

theorem step (h : Sound k s) (hroot : k.root.toNat < 2 ^ 32) {a : Act} (ht : s.Timely k a)
    (hs : s.step k a = some s') : Sound k s' := by
  cases a with
  | stage page window =>
    simp only [Smp.step] at hs
    split at hs
    · next hb =>
      obtain rfl := Option.some.inj hs
      exact h.stage hb page window
    · cases hs
  | boot stack => exact h.bootStep stack ht hs
  | giveUp => exact h.bootGivesUp hs
  | deliver missed => exact h.deliver missed hs
  | exec i => exact h.exec hroot hs
  | fault i => exact h.faults hs

theorem broughtUp (h : Sound k s) : s.BroughtUp k where
  entered i hi := by
    obtain ⟨base, hmem, hrsp⟩ := (h.core i).stack hi
    refine ⟨(h.core i).cr3 (.inr (.inr hi)), (h.core i).id (.inr hi), base, hmem, hrsp, ?_⟩
    intro p hp hne
    have : Std.Symm fun p q : UInt64 × UInt8 => Apart p.1 q.1 := ⟨fun _ _ => Or.symm⟩
    exact h.apart.forall hmem hp hne.symm
  counted := h.counted
  mapped := h.strays

end Sound

open Library

/-- Runs whose steps all meet the condition. -/
def TimelyRun (k : Setup) (s : Smp) : Prop :=
  Run (fun s a s' => s.Timely k a ∧ s.step k a = some s') (fun _ => True) Smp.start s

/-- In a run that takes no core's block away, and with a root below 4 GiB, every core that
arrives is on its own stack under its own id, and nothing runs in a page that is gone. -/
theorem bring_up (k : Setup) (hroot : k.root.toNat < 2 ^ 32) (s : Smp) (h : TimelyRun k s) :
    s.BroughtUp k := by
  have hsound : Sound k s :=
    h.invariant (Sound k) (Sound.start k) fun _ _ _ hi _ hs => hi.step hroot hs.1 hs.2
  exact hsound.broughtUp

theorem forall_uint8 {P : UInt8 → Prop} [DecidablePred P] :
    (List.range 256).all (fun n => P (UInt8.ofNat n)) = true ↔ ∀ i, P i := by
  simp only [List.all_eq_true, List.mem_range, decide_eq_true_eq]
  constructor
  · intro h i
    simpa using h i.toNat i.toNat_lt
  · exact fun h n _ => h _

@[reducible] def decidableForallUInt8 (P : UInt8 → Prop) [DecidablePred P] : Decidable (∀ i, P i) :=
  decidable_of_iff _ forall_uint8

instance (s : Smp) (i : UInt8) : Decidable (s.Due i) := inferInstanceAs (Decidable (_ ∨ _))

instance (s : Smp) : Decidable s.Settled := decidableForallUInt8 fun i => ¬s.Due i

instance (s : Smp) : Decidable s.Drained :=
  decidableForallUInt8 fun i => (s.core i).pc.onPage = false ∧ s.icr ≠ some (.startup, i)

instance (k : Setup) (s : Smp) (a : Act) : Decidable (s.Timely k a) :=
  match a with
  | .boot _ =>
    match hb : s.boot with
    | .next [] => decidable_of_iff s.Drained (by simp [Timely, hb])
    | .next (id :: _) =>
      decidable_of_iff (k.target id ≠ none → s.Settled) (by simp [Timely, hb])
    | .staging | .done | .naming .. | .clearing .. | .sending .. | .sent .. | .polling .. =>
      isTrue (by simp [Timely, hb])
  | .stage .. | .giveUp | .deliver _ | .exec _ | .fault _ => isTrue trivial

/-- The steps `as` in turn, where all of them can be taken and meet the condition. -/
def timelySteps (k : Setup) (s : Smp) : List Act → Option Smp
  | [] => some s
  | a :: as => if s.Timely k a then (s.step k a).bind (·.timelySteps k as) else none

theorem TimelyRun.timelySteps {k : Setup} {s s' : Smp} (h : TimelyRun k s) {as : List Act}
    (hs : s.timelySteps k as = some s') : TimelyRun k s' := by
  induction as generalizing s with
  | nil => exact Option.some.inj hs ▸ h
  | cons a as ih =>
    unfold Smp.timelySteps at hs
    split at hs
    · next ht =>
      obtain ⟨s₁, hstep, hrest⟩ := Option.bind_eq_some_iff.mp hs
      exact ih (h.tail trivial ⟨ht, hstep⟩) hrest
    · cases hs

theorem TimelyRun.of_steps {k : Setup} {as : List Act}
    (hs : (start.timelySteps k as).isSome) : TimelyRun k ((start.timelySteps k as).getD start) := by
  obtain ⟨s, hs⟩ := Option.isSome_iff_exists.mp hs
  rw [hs]
  exact TimelyRun.timelySteps .refl hs

/-! ### A root above 4 GiB -/

section Truncated

variable {k : Setup} {s s' : Smp} {i j : UInt8} {c : Core}

theorem setCore_cr3 (hc : c.cr3 = (s.core i).cr3 ∨ c.cr3.toNat < 2 ^ 32)
    (h : (s.core j).cr3.toNat < 2 ^ 32) : ((s.setCore i c).core j).cr3.toNat < 2 ^ 32 := by
  by_cases hji : j = i
  · subst hji
    obtain hc | hc := hc
    · simpa [setCore, hc] using h
    · simpa [setCore] using hc
  · simpa [setCore, hji] using h

theorem exec_cr3 (hs : s.exec k i = some s') (h : (s.core j).cr3.toNat < 2 ^ 32) :
    (s'.core j).cr3.toNat < 2 ^ 32 := by
  unfold Smp.exec at hs
  dsimp only at hs
  -- whether the page is still mapped only decides what is recorded
  generalize hgen : (if (s.core i).pc.onPage && !s.mapped then
      { s with strays := i :: s.strays } else s) = s₁ at hs
  have hcore : s₁.core = s.core := by
    rw [← hgen]
    split <;> rfl
  rw [← hcore] at h
  split at hs
  case h_1 | h_2 | h_3 | h_4 => cases hs
  case h_5 =>
    obtain rfl := Option.some.inj hs
    refine setCore_cr3 (.inr ?_) h
    simpa using Nat.mod_lt _ (by decide)
  case h_11 =>
    split at hs <;> obtain rfl := Option.some.inj hs <;>
      exact setCore_cr3 (.inl (by rw [hcore])) h
  all_goals
    obtain rfl := Option.some.inj hs
    exact setCore_cr3 (.inl (by rw [hcore])) h

theorem bootStep_core {stack : Option UInt64} (hs : s.bootStep k stack = some s') :
    s'.core = s.core := by
  unfold Smp.bootStep at hs
  split at hs <;> try split at hs
  all_goals try split at hs
  all_goals first
    | (obtain rfl := Option.some.inj hs; rfl)
    | cases hs

/-- What a core has in `CR3` fits in 32 bits. -/
theorem step_cr3 {a : Act} (hs : s.step k a = some s') (h : ∀ j, (s.core j).cr3.toNat < 2 ^ 32) :
    ∀ j, (s'.core j).cr3.toNat < 2 ^ 32 := by
  intro j
  cases a with
  | stage page window =>
    simp only [Smp.step, Smp.stage] at hs
    split at hs
    · obtain rfl := Option.some.inj hs
      split <;> exact h j
    · cases hs
  | boot stack => exact (bootStep_core hs) ▸ h j
  | giveUp =>
    simp only [Smp.step, Smp.bootGivesUp] at hs
    split at hs
    · cases hs
    · split at hs
      · obtain rfl := Option.some.inj hs
        exact h j
      · obtain rfl := Option.some.inj hs
        exact h j
      · cases hs
  | deliver missed =>
    simp only [Smp.step, Smp.deliver] at hs
    split at hs
    · cases hs
    · obtain rfl := Option.some.inj hs
      exact setCore_cr3 (.inr (by simp [Core.reset])) (h j)
    · obtain rfl := Option.some.inj hs
      exact h j
    · split at hs
      · obtain rfl := Option.some.inj hs
        exact setCore_cr3 (.inl rfl) (h j)
      · obtain rfl := Option.some.inj hs
        exact h j
  | exec i => exact exec_cr3 hs (h j)
  | fault i =>
    simp only [Smp.step, Smp.faults] at hs
    split at hs
    · obtain rfl := Option.some.inj hs
      exact setCore_cr3 (.inl rfl) (h j)
    · cases hs

/-- With its root above 4 GiB the kernel never has a core on its own tables. -/
theorem root_truncated (hroot : 2 ^ 32 ≤ k.root.toNat)
    (h : Run (fun s a s' => s.step k a = some s') (fun _ => True) Smp.start s) (i : UInt8) :
    (s.core i).cr3 ≠ k.root := by
  have hsmall : ∀ i, (s.core i).cr3.toNat < 2 ^ 32 :=
    h.invariant (fun s => ∀ i, (s.core i).cr3.toNat < 2 ^ 32)
      (fun i => by simp [Smp.start, Core.halted]) fun _ _ _ hi _ hs => step_cr3 hs hi
  intro heq
  have hlt := hsmall i
  rw [heq] at hlt
  omega

end Truncated

/-- The boot processor's part of one core's turn, on the stack at `base`: the block, then
four messages that are accepted at once. -/
def wake (base : UInt64) : List Act :=
  List.replicate 3 (.boot (some base)) ++
    (List.replicate 4 [.boot none, .deliver false, .boot none]).flatten ++ [.boot none]

/-- From the startup message to the halt in `ap_entry`. -/
def arrive (i : UInt8) : List Act := List.replicate 8 (.exec i)

/-- Three cores, the boot processor the first of them. -/
def trio : Setup := ⟨0x1000, 0xFFFFFFFF80001000, 0, 3, [0, 1, 2]⟩

/-- Both cores run the trampoline as soon as they are started. -/
def prompt : List Act :=
  [.stage true true, .boot none] ++ wake 0x100000 ++ arrive 1 ++ [.boot none] ++
    wake 0x104000 ++ arrive 2 ++ [.boot none, .boot none]

/-- Core 1 runs it after all its 200 reads and in core 2's turn; core 2 after the end. -/
def late : List Act :=
  [.stage true true, .boot none] ++ wake 0x100000 ++ List.replicate 201 (.boot none) ++
    wake 0x104000 ++ arrive 1 ++ [.boot none, .boot none] ++ arrive 2

/-- On the prompt run the condition holds at every step. -/
theorem bring_up_prompt : ((start.timelySteps trio prompt).getD start).BroughtUp trio :=
  bring_up trio (by decide) _ (.of_steps (by decide +kernel))

/-- Core 1 arrives under core 2's id and on core 2's stack, its acknowledgement is counted
for core 2, and core 2 runs in the page when it is no longer mapped. -/
theorem bring_up_fails : ∃ s, start.steps trio late = some s ∧ (s.core 1).rdi = 2 ∧
    (s.core 1).rsp = (s.core 2).rsp ∧ s.counted = [(2, some 1)] ∧ s.strays ≠ [] ∧
      ¬s.BroughtUp trio := by
  obtain ⟨s, hs⟩ : ∃ s, start.steps trio late = some s :=
    Option.isSome_iff_exists.mp (by decide +kernel)
  have hseen : (start.steps trio late).all (fun s => (s.core 1).rdi = 2 ∧
      (s.core 1).rsp = (s.core 2).rsp ∧ s.counted = [(2, some 1)] ∧ s.strays ≠ []) := by
    decide +kernel
  simp only [hs, Option.all_some, decide_eq_true_eq] at hseen
  refine ⟨s, hs, hseen.1, hseen.2.1, hseen.2.2.1, hseen.2.2.2, ?_⟩
  intro h
  exact hseen.2.2.2 h.mapped

end Smp

end StarOs.Kernel
