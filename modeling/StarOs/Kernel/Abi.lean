import Mathlib.Data.List.Basic
import Mathlib.Order.Basic
import Mathlib.Tactic.Common

/-! The types ring 3 and the kernel share: messages, error names and syscall
numbers, with the endpoint numbering that `ipc` and `obj` agree on. The numbers and
the layout of a message are as `services/init/boot/image.rs` restates them (`mod sys`,
`Message`) and section 6 of `docs/SPEC.md` lists them. The raw encoding of an error is
the shared ABI crate's business, so a syscall result is kept as the error's name or the
value. -/

namespace StarOs.Kernel

/-- `staros_ipc::Message`: a tag, four payload words and a capability handle. -/
structure Message where
  tag : UInt64
  words : Vector UInt64 4
  cap : UInt32
  deriving DecidableEq

namespace Message

/-- `Message::new`: an empty payload and the null handle. -/
def new (tag : UInt64) : Message := ⟨tag, Vector.replicate 4 0, 0⟩

/-- Copy the struct in from the six aligned words at `ptr`. The last word holds
the handle in its low half and padding above it. -/
def read (mem : UInt64 → UInt64) (ptr : UInt64) : Message where
  tag := mem ptr
  words := #v[mem (ptr + 8), mem (ptr + 16), mem (ptr + 24), mem (ptr + 32)]
  cap := (mem (ptr + 40)).toUInt32

/-- Copy the struct out to the words at `ptr`; the padding is written as zero. -/
def write (m : Message) (mem : UInt64 → UInt64) (ptr : UInt64) : UInt64 → UInt64 := fun a =>
  if a = ptr then m.tag
  else if a = ptr + 8 then m.words[0]
  else if a = ptr + 16 then m.words[1]
  else if a = ptr + 24 then m.words[2]
  else if a = ptr + 32 then m.words[3]
  else if a = ptr + 40 then m.cap.toUInt64
  else mem a

theorem words_eq (w : Vector UInt64 4) : #v[w[0], w[1], w[2], w[3]] = w := by
  apply Vector.ext
  intro i hi
  obtain rfl | rfl | rfl | rfl : i = 0 ∨ i = 1 ∨ i = 2 ∨ i = 3 := by omega
  all_goals rfl

/-- Ring 3 reads back exactly the message the kernel copied out. -/
theorem read_write (m : Message) (mem : UInt64 → UInt64) (ptr : UInt64) :
    read (m.write mem ptr) ptr = m := by
  obtain ⟨tag, words, cap⟩ := m
  simp only [read, write]
  congr 1
  · simpa using congrArg Vector.toArray (words_eq words)
  · simp

end Message

/-- The error names this kernel answers with. -/
inductive KError where
  | invalidArgument
  | outOfResources
  | permissionDenied
  | badHandle
  | noSuchSyscall
  | notSupported
  deriving DecidableEq

/-- A syscall result: the value in `RAX`, or the error whose negation is there. -/
abbrev Rc := Except KError UInt64

/-- The calls `on_syscall` serves. -/
inductive Syscall where
  | yield | send | recv | exit | revoke | debugWrite
  deriving DecidableEq

/-- `Syscall::from_raw`, as far as `on_syscall` distinguishes its answers: every
other number falls into the arm that refuses. -/
def Syscall.fromRaw (rax : UInt64) : Option Syscall :=
  if rax = 0 then some .yield
  else if rax = 1 then some .send
  else if rax = 2 then some .recv
  else if rax = 4 then some .exit
  else if rax = 6 then some .revoke
  else if rax = 19 then some .debugWrite
  else none

/-- `ipc::NUM_ENDPOINTS`. -/
def numEndpoints : ℕ := 4

/-- `ipc::REPLY_EP` and `ipc::DELEGATED_EP`. -/
def replyEp : Fin numEndpoints := ⟨1, by decide⟩
def delegatedEp : Fin numEndpoints := ⟨2, by decide⟩

/-- `ipc::endpoint_exists`. -/
def endpointExists (id : ℕ) : Bool := id < numEndpoints

end StarOs.Kernel
