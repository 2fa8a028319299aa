import Mathlib.Data.List.Basic
import Mathlib.Logic.Function.Basic
import Mathlib.Tactic.Common
import StarOs.Bootinfo.Handoff
import StarOs.Library.Run

/-! Waking the other cores. The boot processor fills one parameter block for each core in
turn, sends it INIT and two startup messages through the local APIC, and waits for its
acknowledgement; the cores run the trampoline whenever they get to it. -/

namespace StarOs.Kernel

open Bootinfo

/-- The words at the end of the trampoline page. -/
structure Params where
  cr3 : UInt64
  stackTop : UInt64
  entry : UInt64
  cpuId : UInt64
  ack : UInt64
  deriving DecidableEq

/-- Where a core is. From `loadCr3` to `call` it names the next instruction of the
trampoline that reads or writes more than the core's own registers. -/
inductive CorePc where
  | off | waiting
  | loadCr3 | paging | loadStack | writeAck | loadId | loadEntry | call
  | entered | parked | faulted
  deriving DecidableEq

namespace CorePc

/-- It has still to read its id, the last word that differs from core to core. -/
def unread : CorePc → Bool
  | loadCr3 | paging | loadStack | writeAck | loadId => true
  | _ => false

/-- The instruction it is at is in the trampoline page. -/
def onPage : CorePc → Bool
  | loadEntry | call => true
  | pc => pc.unread

/-- `CR0.PG` is set, so the page is reached through `CR3`. -/
def paged : CorePc → Bool
  | loadStack | writeAck | loadId | loadEntry | call => true
  | _ => false

/-- It has got as far as `ap_entry`. -/
def inKernel : CorePc → Bool
  | entered | parked => true
  | _ => false

end CorePc

structure Core where
  pc : CorePc
  cr3 : UInt64
  rsp : UInt64
  rdi : UInt64
  rax : UInt64
  deriving DecidableEq

/-- A core the firmware left halted. -/
def Core.halted : Core := ⟨.off, 0, 0, 0, 0⟩

/-- A core that took INIT: reset, and waiting for a startup message. -/
def Core.reset : Core := ⟨.waiting, 0, 0, 0, 0⟩

/-- What `send_ipi` writes to the command register, for the three kinds used here. -/
inductive Command where
  | init | deassert | startup
  deriving DecidableEq

/-- The messages one core is sent, in order. -/
def sequence : List Command := [.init, .deassert, .startup, .startup]

/-- Where the boot processor is in `start_cores`; `ids` are the ids still to come. -/
inductive Boot where
  | staging
  | next (ids : List UInt32)
  -- `prepare_slot`, after the stack and after the id
  | naming (id : UInt32) (target : UInt8) (ids : List UInt32)
  | clearing (target : UInt8) (ids : List UInt32)
  -- `send_ipi`, before and after the command is written
  | sending (target : UInt8) (todo : List Command) (ids : List UInt32)
  | sent (target : UInt8) (todo : List Command) (ids : List UInt32)
  -- `wait_for_ack`, with the reads of the word it has left
  | polling (target : UInt8) (reads : ℕ) (ids : List UInt32)
  | done
  deriving DecidableEq

/-- What the call of `start_cores` finds. -/
structure Setup where
  root : UInt64
  entry : UInt64
  selfId : UInt8
  cpus : ℕ
  cpuIds : List UInt32

/-- The boot processor, the low page, the command register and the cores. Four fields
only record: who wrote `ACK` last, the stacks given out and for whom, the
acknowledgements counted in `woken` with their target and their writer, and the cores that
executed the page while it was not mapped. -/
structure Smp where
  boot : Boot
  params : Params
  mapped : Bool
  icr : Option (Command × UInt8)
  core : UInt8 → Core
  online : UInt32
  rollCall : UInt64
  ackBy : Option UInt8
  apStacks : List (UInt64 × UInt8)
  counted : List (UInt8 × Option UInt8)
  strays : List UInt8

/-- `AP_STACK_PAGES * PAGE_BYTES` -/
def apStackBytes : UInt64 := 4 * 4096

/-- The address `alloc_ap_stack` returns for the frames at `base`. -/
def apStackTop (base : UInt64) : UInt64 := physToVirt base + apStackBytes

/-- Two stacks share no frame. -/
def Apart (base base' : UInt64) : Prop :=
  base.toNat + apStackBytes.toNat ≤ base'.toNat ∨ base'.toNat + apStackBytes.toNat ≤ base.toNat

instance (base base' : UInt64) : Decidable (Apart base base') :=
  inferInstanceAs (Decidable (_ ∨ _))

/-- `u8::try_from`, and the skip of the boot processor itself. -/
def Setup.target (k : Setup) (id : UInt32) : Option UInt8 :=
  if id.toNat < 256 ∧ id.toUInt8 ≠ k.selfId then some id.toUInt8 else none

namespace Smp

def start : Smp where
  boot := .staging
  params := ⟨0, 0, 0, 0, 0⟩
  mapped := false
  icr := none
  core _ := Core.halted
  online := 1
  rollCall := 0
  ackBy := none
  apStacks := []
  counted := []
  strays := []

def setCore (s : Smp) (i : UInt8) (c : Core) : Smp := { s with core := Function.update s.core i c }

/-- `start_cores` up to its loop. The page may fail to be mapped and the window on the
APIC may fail to open; the second failure leaves the page mapped. -/
def stage (k : Setup) (page window : Bool) (s : Smp) : Smp :=
  if k.cpus ≤ 1 then { s with boot := .done }
  else
    let params := { s.params with cr3 := k.root, entry := k.entry, ack := 0 }
    { s with
      params, mapped := page, ackBy := none,
      boot := if page && window then .next (k.cpuIds.take k.cpus) else .done }

/-- The frame pool never gives out a frame that is outstanding. -/
def Fresh (s : Smp) : Option UInt64 → Prop
  | none => True
  | some base => ∀ p ∈ s.apStacks, Apart base p.1

instance (s : Smp) (stack : Option UInt64) : Decidable (s.Fresh stack) :=
  match stack with
  | none => inferInstanceAs (Decidable True)
  | some base => List.decidableBAll (fun p : UInt64 × UInt8 => Apart base p.1) s.apStacks

/-- The first store of `prepare_slot`: `alloc_ap_stack().unwrap_or(0)`. -/
def prepareSlot (id : UInt32) (target : UInt8) (ids : List UInt32) (stack : Option UInt64)
    (s : Smp) : Smp :=
  { s with
    boot := .naming id target ids
    params := { s.params with stackTop := (stack.map apStackTop).getD 0 }
    apStacks := (stack.map (·, target)).toList ++ s.apStacks }

/-- The boot processor's next step. `stack` is the pool's answer where it is asked; a
command register that stays busy is waited for, or given up on (`bootGivesUp`). -/
def bootStep (k : Setup) (stack : Option UInt64) (s : Smp) : Option Smp :=
  match s.boot with
  | .staging | .done => none
  | .next [] => some { s with mapped := false, boot := .done }
  | .next (id :: ids) =>
    match k.target id with
    | none => some { s with boot := .next ids }
    | some target => if s.Fresh stack then some (s.prepareSlot id target ids stack) else none
  | .naming id target ids =>
    some { s with params := { s.params with cpuId := id.toUInt64 }, boot := .clearing target ids }
  | .clearing target ids =>
    some { s with
      params := { s.params with ack := 0 }, ackBy := none, boot := .sending target sequence ids }
  | .sending target [] ids => some { s with boot := .polling target 200 ids }
  | .sending target (c :: todo) ids =>
    if s.icr = none then some { s with icr := some (c, target), boot := .sent target todo ids }
    else none
  | .sent target todo ids =>
    if s.icr = none then some { s with boot := .sending target todo ids } else none
  | .polling _ 0 ids => some { s with boot := .next ids }
  | .polling target (reads + 1) ids =>
    if s.params.ack ≠ 0 then
      some { s with counted := (target, s.ackBy) :: s.counted, boot := .next ids }
    else some { s with boot := .polling target reads ids }

/-- `wait_idle` runs out of time: the core is reported and passed over. -/
def bootGivesUp (s : Smp) : Option Smp :=
  if s.icr = none then none
  else
    match s.boot with
    | .sending _ (_ :: _) ids | .sent _ _ ids => some { s with boot := .next ids }
    | _ => none

/-- The command in the register arrives. INIT resets the core; a startup message starts a
core that waits for one, unless it arrives during the reset and is missed. -/
def deliver (missed : Bool) (s : Smp) : Option Smp :=
  match s.icr with
  | none => none
  | some (.init, t) => some ({ s with icr := none }.setCore t Core.reset)
  | some (.deassert, _) => some { s with icr := none }
  | some (.startup, t) =>
    if (s.core t).pc = .waiting ∧ missed = false then
      some ({ s with icr := none }.setCore t { s.core t with pc := .loadCr3 })
    else some { s with icr := none }

/-- Core `i` executes: an instruction of the trampoline, or `ap_entry`. -/
def exec (k : Setup) (i : UInt8) (s : Smp) : Option Smp :=
  let c := s.core i
  let s := if c.pc.onPage && !s.mapped then { s with strays := i :: s.strays } else s
  match c.pc with
  | .off | .waiting | .parked | .faulted => none
  -- `mov eax, [ebx + CR3]; mov cr3, eax`: half of the word
  | .loadCr3 =>
    some (s.setCore i { c with cr3 := s.params.cr3.toUInt32.toUInt64, pc := .paging })
  | .paging => some (s.setCore i { c with pc := .loadStack })
  | .loadStack => some (s.setCore i { c with rsp := s.params.stackTop, pc := .writeAck })
  | .writeAck =>
    some ({ s with params := { s.params with ack := 1 }, ackBy := some i }.setCore i
      { c with pc := .loadId })
  | .loadId => some (s.setCore i { c with rdi := s.params.cpuId, pc := .loadEntry })
  | .loadEntry => some (s.setCore i { c with rax := s.params.entry, pc := .call })
  -- on a stack pointer of zero the call's push goes to the last page there is, unmapped
  | .call =>
    if c.rsp ≠ 0 ∧ c.rax = k.entry then
      some (s.setCore i { c with rsp := c.rsp - 8, pc := .entered })
    else some (s.setCore i { c with pc := .faulted })
  | .entered =>
    some ({ s with rollCall := s.rollCall + (c.rdi + 1), online := s.online + 1 }.setCore i
      { c with pc := .parked })

/-- A core whose tables are not the kernel's, or no longer map the page, may fault on it. -/
def faults (k : Setup) (i : UInt8) (s : Smp) : Option Smp :=
  if (s.core i).pc.paged ∧ ((s.core i).cr3 ≠ k.root ∨ s.mapped = false) then
    some (s.setCore i { s.core i with pc := .faulted })
  else none

inductive Act where
  | stage (page window : Bool)
  | boot (stack : Option UInt64)
  | giveUp
  | deliver (missed : Bool)
  | exec (i : UInt8)
  | fault (i : UInt8)
  deriving DecidableEq

def step (k : Setup) (s : Smp) : Act → Option Smp
  | .stage page window => if s.boot = .staging then some (s.stage k page window) else none
  | .boot stack => s.bootStep k stack
  | .giveUp => s.bootGivesUp
  | .deliver missed => s.deliver missed
  | .exec i => s.exec k i
  | .fault i => s.faults k i

/-- The steps `as` in turn, where all of them can be taken. -/
def steps (k : Setup) (s : Smp) : List Act → Option Smp
  | [] => some s
  | a :: as => (s.step k a).bind (·.steps k as)

end Smp

end StarOs.Kernel
