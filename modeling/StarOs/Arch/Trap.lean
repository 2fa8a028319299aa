import StarOs.Library.X86

/-! The way into the trap handler and out of it: the 256 stubs, the registers they save around
the frame that the processor builds, and the return. -/

namespace StarOs.Arch

open Library.X86

/-- In the order of the fields, which is the order in memory. -/
structure TrapFrame where
  rax : Word
  rbx : Word
  rcx : Word
  rdx : Word
  rsi : Word
  rdi : Word
  rbp : Word
  r8 : Word
  r9 : Word
  r10 : Word
  r11 : Word
  r12 : Word
  r13 : Word
  r14 : Word
  r15 : Word
  vector : Word
  errorCode : Word
  rip : Word
  cs : Word
  rflags : Word
  rsp : Word
  ss : Word

namespace TrapFrame

def fromUser (f : TrapFrame) : Bool := f.cs &&& 3 != 0

/-- The saved registers, the words of the stub, and the words of the processor. -/
def words (f : TrapFrame) : List Word :=
  [f.rax, f.rbx, f.rcx, f.rdx, f.rsi, f.rdi, f.rbp, f.r8, f.r9, f.r10, f.r11, f.r12, f.r13, f.r14,
    f.r15] ++ [f.vector, f.errorCode] ++ [f.rip, f.cs, f.rflags, f.rsp, f.ss]

end TrapFrame

/-- `HAS_ERROR_CODE`. -/
def hasErrorCode : List (BitVec 8) := [8, 10, 11, 12, 13, 14, 17, 21, 29, 30]

def pushesErrorCode (vector : BitVec 8) : Bool := hasErrorCode.contains vector

/-! ### What the processor does -/

/-- The flags that an interrupt gate clears: `TF`, `IF`, `NT`, `RF` and `VM`. -/
def gateFlags : Word := 0x34300

/-- Delivery on the stack under `top`, which the processor aligns. -/
def deliver (vector : BitVec 8) (err top target cs ss : Word) (s : Cpu) : Cpu :=
  let words := [s.ss, s.rsp, s.rflags, s.cs, s.rip]
  let pushed := (s.setReg .rsp (top - top % 16)).pushes
    (if pushesErrorCode vector then words ++ [err] else words)
  { pushed with rip := target, cs := cs, ss := ss, rflags := s.rflags &&& ~~~gateFlags }

/-! ### The stubs -/

/-- `STAROS_TRAP_STUB`, with the list as the assembler has it. -/
def trapStub (vec : BitVec 8) : List Instr :=
  if vec = 8 ∨ vec = 10 ∨ vec = 11 ∨ vec = 12 ∨ vec = 13 ∨ vec = 14 ∨ vec = 17 ∨ vec = 21 ∨
      vec = 29 ∨ vec = 30 then
    [.pushImm (vec.setWidth 64)]
  else
    [.pushImm 0, .pushImm (vec.setWidth 64)]

/-- The registers in the order in which they come off the stack. -/
def savedRegs : List Reg :=
  [.rax, .rbx, .rcx, .rdx, .rsi, .rdi, .rbp, .r8, .r9, .r10, .r11, .r12, .r13, .r14, .r15]

/-- `staros_trap_common`, as far as the call. -/
def trapCommon : List Instr :=
  [.push .r15, .push .r14, .push .r13, .push .r12, .push .r11, .push .r10, .push .r9, .push .r8,
    .push .rbp, .push .rdi, .push .rsi, .push .rdx, .push .rcx, .push .rbx, .push .rax,
    .cld, .mov .rdi .rsp]

/-- `staros_trap_common`, from the return of the call to `iretq`. -/
def trapReturn : List Instr :=
  [.pop .rax, .pop .rbx, .pop .rcx, .pop .rdx, .pop .rsi, .pop .rdi, .pop .rbp, .pop .r8, .pop .r9,
    .pop .r10, .pop .r11, .pop .r12, .pop .r13, .pop .r14, .pop .r15, .add .rsp 16]

/-- The call of `staros_trap_dispatch`: the handler may change the frame, and compiled code
brings the stack pointer back. -/
structure Dispatched (handler : TrapFrame → TrapFrame) (s s' : Cpu) : Prop where
  rsp : s'.rsp = s.rsp
  frame : ∀ f : TrapFrame, Holds s.mem (s.regs .rdi) f.words →
    Holds s'.mem (s.regs .rdi) (handler f).words

/-- What the handler is to find. -/
def frameOf (vector : BitVec 8) (err : Word) (s : Cpu) : TrapFrame where
  rax := s.regs .rax
  rbx := s.regs .rbx
  rcx := s.regs .rcx
  rdx := s.regs .rdx
  rsi := s.regs .rsi
  rdi := s.regs .rdi
  rbp := s.regs .rbp
  r8 := s.regs .r8
  r9 := s.regs .r9
  r10 := s.regs .r10
  r11 := s.regs .r11
  r12 := s.regs .r12
  r13 := s.regs .r13
  r14 := s.regs .r14
  r15 := s.regs .r15
  vector := vector.setWidth 64
  errorCode := if pushesErrorCode vector then err else 0
  rip := s.rip
  cs := s.cs
  rflags := s.rflags
  rsp := s.rsp
  ss := s.ss

/-- The register of a frame. -/
def TrapFrame.reg (f : TrapFrame) : Reg → Word
  | .rax => f.rax | .rbx => f.rbx | .rcx => f.rcx | .rdx => f.rdx
  | .rsi => f.rsi | .rdi => f.rdi | .rbp => f.rbp | .rsp => f.rsp
  | .r8 => f.r8 | .r9 => f.r9 | .r10 => f.r10 | .r11 => f.r11
  | .r12 => f.r12 | .r13 => f.r13 | .r14 => f.r14 | .r15 => f.r15

/-- The processor runs on from the frame. -/
structure Resumes (f : TrapFrame) (s : Cpu) : Prop where
  regs : ∀ r, s.regs r = f.reg r
  rip : s.rip = f.rip
  cs : s.cs = f.cs
  rflags : s.rflags = f.rflags
  ss : s.ss = f.ss

section lemmas

variable {vector : BitVec 8} {err top target cs ss : Word} {s : Cpu} {f : TrapFrame}

/-- The assembler's list is the architecture's. -/
theorem trapStub_eq : trapStub vector =
    if pushesErrorCode vector then [.pushImm (vector.setWidth 64)]
    else [.pushImm 0, .pushImm (vector.setWidth 64)] := by
  simp [trapStub, pushesErrorCode, hasErrorCode]

/-- After delivery and stub there is one layout for all vectors. -/
theorem deliver_stub : ((deliver vector err top target cs ss s).execs (trapStub vector)) =
    { (s.setReg .rsp (top - top % 16)).pushes [s.ss, s.rsp, s.rflags, s.cs, s.rip,
        (if pushesErrorCode vector then err else 0), vector.setWidth 64] with
      rip := target, cs := cs, ss := ss, rflags := s.rflags &&& ~~~gateFlags } := by
  rw [trapStub_eq, deliver]
  cases pushesErrorCode vector <;> rfl

/-- The processor as the dispatcher is called. -/
def trapEntry (vector : BitVec 8) (err top target cs ss : Word) (s : Cpu) : Cpu :=
  ((deliver vector err top target cs ss s).execs (trapStub vector)).execs trapCommon

/-- The processor after `iretq`. -/
def trapExit (s : Cpu) : Cpu := (s.execs trapReturn).iretq

theorem trapCommon_eq : trapCommon = savedRegs.reverse.map .push ++ [.cld, .mov .rdi .rsp] := rfl

theorem trapReturn_eq : trapReturn = savedRegs.map .pop ++ [.add .rsp 16] := rfl

/-- The dispatcher finds the frame at the stack pointer, which it is handed, under an aligned
stack, and the way there has written to nothing but the 176 bytes of the frame. -/
theorem trapEntry_frame (vector : BitVec 8) (err top target cs ss : Word) (s : Cpu) :
    let e := trapEntry vector err top target cs ss s
    Holds e.mem e.rsp (frameOf vector err s).words ∧ e.regs .rdi = e.rsp ∧
      e.rsp = top - top % 16 - 176 ∧ Within s.mem e.mem e.rsp 176 := by
  let base := s.setReg .rsp (top - top % 16)
  let seven := [s.ss, s.rsp, s.rflags, s.cs, s.rip, (if pushesErrorCode vector then err else 0),
    vector.setWidth 64]
  let mid : Cpu := { base.pushes seven with
    rip := target, cs := cs, ss := ss, rflags := s.rflags &&& ~~~gateFlags }
  let saved := savedRegs.reverse.map mid.regs
  have hentry : trapEntry vector err top target cs ss s = (mid.pushes saved).handOver := by
    rw [trapEntry, deliver_stub, trapCommon_eq, Cpu.execs_append, Cpu.execs_push (by decide)]
    rfl
  have hregs (r : Reg) (hne : r ≠ .rsp) : mid.regs r = s.regs r :=
    ((base.pushes_same seven).regs r hne).trans (Cpu.setReg_of_ne hne)
  have hsaved : saved.reverse = savedRegs.map s.regs := by
    rw [← List.map_reverse, List.reverse_reverse]
    refine List.map_congr_left fun r hr => hregs r ?_
    rintro rfl
    revert hr
    decide
  have hmid : Holds mid.mem mid.rsp (seven.reverse ++ []) :=
    base.pushes_holds seven (by simp [seven]) holds_nil
  have hall := mid.pushes_holds saved (by simp [saved, seven, savedRegs]) hmid
  have hrsp : (mid.pushes saved).rsp = top - top % 16 - 176 := by
    rw [Cpu.pushes_rsp, show mid.rsp = _ from base.pushes_rsp seven, BitVec.sub_sub]
    rfl
  rw [hentry]
  simp only [Cpu.handOver_mem, Cpu.handOver_rsp, Cpu.handOver_rdi]
  refine ⟨?_, trivial, hrsp, ?_⟩
  · rw [hsaved] at hall
    exact hall
  · have hlow := mid.pushes_within saved (by simp [saved, savedRegs])
    have hhigh := base.pushes_within seven (by simp [seven])
    have hup : (mid.pushes saved).rsp + BitVec.ofNat 64 120 = (base.pushes seven).rsp := by
      rw [Cpu.pushes_rsp]
      exact BitVec.sub_add_cancel _ _
    refine Within.below (k := 120) (n := 56) ?_ hlow (by decide)
    rw [hup]
    exact hhigh

/-- What the frame says when the dispatcher is back is what the processor runs on from. -/
theorem trapExit_resumes (h : Holds s.mem s.rsp f.words) : Resumes f (trapExit s) := by
  have hnot : Reg.rsp ∉ savedRegs := by decide
  have hnd : savedRegs.Nodup := by decide
  obtain ⟨popped, hpopped⟩ : ∃ p, p = s.pops savedRegs := ⟨_, rfl⟩
  have hmem : popped.mem = s.mem := hpopped ▸ Cpu.pops_mem
  have hrsp : popped.rsp = s.rsp + 120 := hpopped ▸ Cpu.pops_rsp hnot
  have hexit : trapExit s = (popped.setReg .rsp (popped.rsp + 16)).iretq := by
    rw [hpopped, trapExit, trapReturn_eq, Cpu.execs_append, Cpu.execs_pop]
    rfl
  have hword (i : ℕ) (w : Word) (hi : f.words[i]? = some w) (off : Word)
      (hoff : BitVec.ofNat 64 (8 * i) = 120 + 16 + off) :
      load (popped.setReg .rsp (popped.rsp + 16)).mem
        ((popped.setReg .rsp (popped.rsp + 16)).rsp + off) = w := by
    rw [Cpu.setReg_rsp, Cpu.setReg_mem, hmem, hrsp, BitVec.add_assoc, BitVec.add_assoc,
      ← BitVec.add_assoc 120, ← hoff]
    exact h i w hi
  have hsaved (i : ℕ) (r : Reg) (w : Word) (hr : savedRegs[i]? = some r)
      (hw : f.words[i]? = some w) (hne : r ≠ .rsp) : (trapExit s).regs r = w := by
    rw [hexit, Cpu.iretq_regs_of_ne hne, Cpu.setReg_of_ne hne, hpopped]
    exact Cpu.pops_regs hnot hnd h hr hw
  refine ⟨fun r => ?_, ?_, ?_, ?_, ?_⟩
  · cases r with
    | rsp =>
      rw [hexit]
      exact Cpu.iretq_rsp.trans (hword 20 f.rsp rfl 24 rfl)
    | rax => exact hsaved 0 .rax _ rfl rfl (by decide)
    | rbx => exact hsaved 1 .rbx _ rfl rfl (by decide)
    | rcx => exact hsaved 2 .rcx _ rfl rfl (by decide)
    | rdx => exact hsaved 3 .rdx _ rfl rfl (by decide)
    | rsi => exact hsaved 4 .rsi _ rfl rfl (by decide)
    | rdi => exact hsaved 5 .rdi _ rfl rfl (by decide)
    | rbp => exact hsaved 6 .rbp _ rfl rfl (by decide)
    | r8 => exact hsaved 7 .r8 _ rfl rfl (by decide)
    | r9 => exact hsaved 8 .r9 _ rfl rfl (by decide)
    | r10 => exact hsaved 9 .r10 _ rfl rfl (by decide)
    | r11 => exact hsaved 10 .r11 _ rfl rfl (by decide)
    | r12 => exact hsaved 11 .r12 _ rfl rfl (by decide)
    | r13 => exact hsaved 12 .r13 _ rfl rfl (by decide)
    | r14 => exact hsaved 13 .r14 _ rfl rfl (by decide)
    | r15 => exact hsaved 14 .r15 _ rfl rfl (by decide)
  · rw [hexit]
    have hrip := hword 17 f.rip rfl 0#64 rfl
    rwa [BitVec.add_zero] at hrip
  · rw [hexit]
    exact hword 18 f.cs rfl 8 rfl
  · rw [hexit]
    exact hword 19 f.rflags rfl 16 rfl
  · rw [hexit]
    exact hword 21 f.ss rfl 32 rfl

/-- Whatever vector comes, with an error code or without, the handler finds the state that was
interrupted, aligned as compiled code needs it, and the processor runs on from what the handler
leaves in the frame; the way in writes to nothing but the frame. -/
theorem trap_round_trip {handler : TrapFrame → TrapFrame} {s' : Cpu}
    (hd : Dispatched handler (trapEntry vector err top target cs ss s) s') :
    let e := trapEntry vector err top target cs ss s
    Holds e.mem (e.regs .rdi) (frameOf vector err s).words ∧ e.rsp.toNat % 16 = 0 ∧
      Within s.mem e.mem (top - top % 16 - 176) 176 ∧
      Resumes (handler (frameOf vector err s)) (trapExit s') := by
  obtain ⟨hframe, hrdi, hrsp, hmem⟩ := trapEntry_frame vector err top target cs ss s
  refine ⟨by rwa [hrdi], ?_, by rwa [hrsp] at hmem, trapExit_resumes ?_⟩
  · rw [hrsp]
    have hlt := top.isLt
    simp only [BitVec.toNat_sub, BitVec.toNat_umod, BitVec.ofNat_eq_ofNat, BitVec.toNat_ofNat,
      Nat.reducePow, Nat.reduceMod]
    omega
  · rw [hd.rsp, ← hrdi]
    exact hd.frame _ (by rwa [hrdi])

/-- Before a page fault at `0x1000`. -/
def faulting : Cpu := ⟨fun _ => 0, fun _ => 0, 0x1000, 0x202, 8, 0x10, 0, 0⟩

theorem trap_round_trip_fault : (trapExit (trapEntry 14 2 0x9008 0 8 0x10 faulting)).rip = 0x1000 := by
  have hd : Dispatched id (trapEntry 14 2 0x9008 0 8 0x10 faulting) _ := ⟨rfl, fun _ h => h⟩
  exact (trap_round_trip hd).2.2.2.rip

end lemmas

end StarOs.Arch
