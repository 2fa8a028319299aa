import StarOs.Library.X86

/-! The `syscall` path: the instruction, the stub that builds the frame on the kernel stack of the
core, and the two ways back to ring 3. -/

namespace StarOs.Arch

open Library.X86

/-! ### Registers of the path -/

def rflagsTF : Word := 1 <<< 8
def rflagsIF : Word := 1 <<< 9
def rflagsDF : Word := 1 <<< 10
def rflagsNT : Word := 1 <<< 14
def rflagsRF : Word := 1 <<< 16
def rflagsAC : Word := 1 <<< 18

/-- `FMASK`. -/
def fmask : Word := rflagsTF ||| rflagsIF ||| rflagsDF ||| rflagsNT ||| rflagsRF ||| rflagsAC

def starValue (kernelBase userBase : BitVec 16) : Word :=
  (userBase.setWidth 64 <<< 48) ||| (kernelBase.setWidth 64 <<< 32)

def syscallCs (star : Word) : BitVec 16 := ((star >>> 32) &&& 0xFFFF).setWidth 16

def syscallSs (star : Word) : BitVec 16 := syscallCs star + 8

def sysretCs (star : Word) : BitVec 16 := (((star >>> 48) &&& 0xFFFF).setWidth 16 + 16) ||| 3

def sysretSs (star : Word) : BitVec 16 := (((star >>> 48) &&& 0xFFFF).setWidth 16 + 8) ||| 3

def isCanonical (address : Word) : Bool := (address <<< 16).sshiftRight 16 == address

/-- `gdt::KERNEL_CODE` and its fellows. -/
def kernelCode : BitVec 16 := 0x08
def kernelData : BitVec 16 := 0x10
def userCode32 : BitVec 16 := 0x18 ||| 3
def userData : BitVec 16 := 0x20 ||| 3
def userCode : BitVec 16 := 0x28 ||| 3

/-- What `init` writes into `IA32_STAR`. -/
def star : Word := starValue kernelCode (userCode32 &&& ~~~3)

/-- Offsets into `PerCpu`. -/
def offKernelRsp : Word := 0
def offScratchRsp : Word := 8

/-- In the order of the fields, which is the order in memory. -/
structure SyscallFrame where
  rax : Word
  rdi : Word
  rsi : Word
  rdx : Word
  r10 : Word
  r8 : Word
  r9 : Word
  rip : Word
  rflags : Word
  userRsp : Word

def SyscallFrame.words (f : SyscallFrame) : List Word :=
  [f.rax, f.rdi, f.rsi, f.rdx, f.r10, f.r8, f.r9, f.rip, f.rflags, f.userRsp]

/-- `Return`. -/
inductive Return where
  | sysret
  | iret
  deriving DecidableEq

def Return.value : Return → Word
  | .sysret => 0
  | .iret => 1

/-- The end of `staros_syscall_dispatch`. -/
def returnPath (f : SyscallFrame) : Return := if isCanonical f.rip then .sysret else .iret

/-! ### What the processor does -/

/-- `syscall`, to the address in `IA32_LSTAR`. -/
def syscallInstr (lstar : Word) (s : Cpu) : Cpu :=
  { (s.setReg .rcx s.rip).setReg .r11 s.rflags with
    rip := lstar
    cs := (syscallCs star).setWidth 64
    ss := (syscallSs star).setWidth 64
    rflags := s.rflags &&& ~~~fmask }

/-- The flags that `sysretq` takes from `R11`. -/
def sysretFlags : Word := 0x3C7FD7

/-- `sysretq`. None is the fault that an address which is not canonical raises, in ring 0. -/
def sysretq (s : Cpu) : Option Cpu :=
  if isCanonical (s.regs .rcx) then
    some { s with
      rip := s.regs .rcx
      rflags := s.regs .r11 &&& sysretFlags ||| 2
      cs := (sysretCs star).setWidth 64
      ss := (sysretSs star).setWidth 64 }
  else none

/-! ### The stub -/

/-- `staros_syscall_entry`, as far as the call. -/
def syscallEntry : List Instr :=
  [.swapgs, .storeGs offScratchRsp .rsp, .loadGs .rsp offKernelRsp,
    .pushGs offScratchRsp, .push .r11, .push .rcx, .push .r9, .push .r8, .push .r10, .push .rdx,
    .push .rsi, .push .rdi, .push .rax, .cld, .mov .rdi .rsp]

/-- The registers of the frame that both ways back pop first. -/
def frameRegs : List Reg := [.rax, .rdi, .rsi, .rdx, .r10, .r8, .r9, .rcx, .r11]

/-- From `jnz` not taken to `sysretq`. -/
def fastReturn : List Instr :=
  [.pop .rax, .pop .rdi, .pop .rsi, .pop .rdx, .pop .r10, .pop .r8, .pop .r9, .pop .rcx, .pop .r11,
    .pop .rsp, .swapgs]

/-- From the label `2` to `iretq`. -/
def slowReturn : List Instr :=
  [.load .rax .rsp 72, .storeGs offScratchRsp .rax,
    .pop .rax, .pop .rdi, .pop .rsi, .pop .rdx, .pop .r10, .pop .r8, .pop .r9, .pop .rcx, .pop .r11,
    .add .rsp 8, .pushImm (userData.setWidth 64), .pushGs offScratchRsp, .push .r11,
    .pushImm (userCode.setWidth 64), .push .rcx, .swapgs]

/-- `test rax, rax` and the two ways back. -/
def syscallReturn (s : Cpu) : Option Cpu :=
  if s.regs .rax = 0 then sysretq (s.execs fastReturn) else some (s.execs slowReturn).iretq

/-- The call of `staros_syscall_dispatch`. The handler may change the frame; a task that was
switched away in it may come back on another core, whose block `gs` then names, and the base of
ring 3 stays in the other register. -/
structure SyscallDispatched (handler : SyscallFrame → SyscallFrame) (s s' : Cpu) : Prop where
  rsp : s'.rsp = s.rsp
  saved : ∀ r ∈ calleeSaved, s'.regs r = s.regs r
  kernelGsBase : s'.kernelGsBase = s.kernelGsBase
  frame : ∀ f : SyscallFrame, Holds s.mem (s.regs .rdi) f.words →
    Holds s'.mem (s.regs .rdi) (handler f).words ∧
      s'.regs .rax = (returnPath (handler f)).value

def syscallFrameOf (s : Cpu) : SyscallFrame where
  rax := s.regs .rax
  rdi := s.regs .rdi
  rsi := s.regs .rsi
  rdx := s.regs .rdx
  r10 := s.regs .r10
  r8 := s.regs .r8
  r9 := s.regs .r9
  rip := s.rip
  rflags := s.rflags
  userRsp := s.rsp

/-- Ring 3 runs on from the frame; the address and the flags of the return are in `RCX` and
`R11`, which `syscall` had destroyed. -/
structure ResumesUser (f : SyscallFrame) (s : Cpu) : Prop where
  words : (frameRegs ++ [Reg.rsp]).map s.regs = f.words
  rip : s.rip = f.rip
  rflags : s.rflags = f.rflags
  cs : s.cs = userCode.setWidth 64
  ss : s.ss = userData.setWidth 64

section lemmas

variable {lstar : Word} {s : Cpu} {f : SyscallFrame}

theorem star_selectors : syscallCs star = kernelCode ∧ syscallSs star = kernelData ∧
    sysretCs star = userCode ∧ sysretSs star = userData := by decide

/-- The two halves: below `2^47`, and the last `2^47`. -/
theorem isCanonical_iff (a : Word) :
    isCanonical a = true ↔ a.toNat < 2 ^ 47 ∨ 2 ^ 64 - 2 ^ 47 ≤ a.toNat := by
  rw [isCanonical, beq_iff_eq, ← BitVec.toInt_inj, BitVec.toInt_sshiftRight,
    BitVec.toInt_eq_toNat_cond, BitVec.toInt_eq_toNat_cond, BitVec.toNat_shiftLeft,
    Int.shiftRight_eq_div_pow]
  have hlt := a.isLt
  simp only [Nat.shiftLeft_eq]
  split <;> split <;> omega

/-- The registers in the order of the pushes, after the stack pointer of ring 3. -/
def entryRegs : List Reg := [.r11, .rcx, .r9, .r8, .r10, .rdx, .rsi, .rdi, .rax]

/-- After the three instructions that may not touch a stack. -/
def onKernelStack (lstar : Word) (s : Cpu) : Cpu :=
  (syscallInstr lstar s).execs
    [.swapgs, .storeGs offScratchRsp .rsp, .loadGs .rsp offKernelRsp]

theorem onKernelStack_mem :
    (onKernelStack lstar s).mem = store s.mem (s.kernelGsBase + 8) s.rsp := rfl

theorem onKernelStack_gsBase : (onKernelStack lstar s).gsBase = s.kernelGsBase := rfl

theorem onKernelStack_regs {r : Reg} (hr : r ≠ .rsp) :
    (onKernelStack lstar s).regs r = (syscallInstr lstar s).regs r := Cpu.setReg_of_ne hr

theorem onKernelStack_rsp : (onKernelStack lstar s).rsp = load s.mem s.kernelGsBase := by
  have hblock : Apart s.kernelGsBase 8 (s.kernelGsBase + 8) 8 := apart_next (by decide)
  rw [← hblock.load_store s.rsp]
  exact Cpu.setReg_self.trans (congrArg (load _) (BitVec.add_zero _))

theorem syscallInstr_regs_eq :
    (syscallInstr lstar s).regs = ((s.setReg .rcx s.rip).setReg .r11 s.rflags).regs := rfl

theorem syscallInstr_rcx : (syscallInstr lstar s).regs .rcx = s.rip := by
  rw [syscallInstr_regs_eq, Cpu.setReg_of_ne (by decide), Cpu.setReg_self]

theorem syscallInstr_r11 : (syscallInstr lstar s).regs .r11 = s.rflags := by
  rw [syscallInstr_regs_eq, Cpu.setReg_self]

theorem syscallInstr_regs {r : Reg} (hrcx : r ≠ .rcx) (hr11 : r ≠ .r11) :
    (syscallInstr lstar s).regs r = s.regs r := by
  rw [syscallInstr_regs_eq, Cpu.setReg_of_ne hr11, Cpu.setReg_of_ne hrcx]

/-- The words pushed are the fields of the frame, the last field first. -/
theorem entryRegs_values : s.rsp :: entryRegs.map (onKernelStack lstar s).regs =
    (syscallFrameOf s).words.reverse := by
  have hreg (r : Reg) (h : r ≠ .rsp ∧ r ≠ .rcx ∧ r ≠ .r11) :
      (onKernelStack lstar s).regs r = s.regs r :=
    (onKernelStack_regs h.1).trans (syscallInstr_regs h.2.1 h.2.2)
  simp only [entryRegs, List.map_cons, List.map_nil]
  rw [onKernelStack_regs (r := .r11) (by decide), syscallInstr_r11,
    onKernelStack_regs (r := .rcx) (by decide), syscallInstr_rcx, hreg .r9 (by decide),
    hreg .r8 (by decide), hreg .r10 (by decide), hreg .rdx (by decide), hreg .rsi (by decide),
    hreg .rdi (by decide), hreg .rax (by decide)]
  rfl

theorem syscallEntry_eq (lstar : Word) (s : Cpu) : (syscallInstr lstar s).execs syscallEntry =
    ((onKernelStack lstar s).pushes (syscallFrameOf s).words.reverse).handOver := by
  have hscratch : (onKernelStack lstar s).exec (.pushGs offScratchRsp) =
      (onKernelStack lstar s).push s.rsp := by
    have hload := load_store_same s.mem (s.kernelGsBase + 8) s.rsp
    rw [Cpu.exec, onKernelStack_mem, onKernelStack_gsBase]
    exact congrArg _ hload
  have hmap : entryRegs.map ((onKernelStack lstar s).push s.rsp).regs =
      entryRegs.map (onKernelStack lstar s).regs := by
    refine List.map_congr_left fun r hr => Cpu.push_regs_of_ne ?_
    rintro rfl
    revert hr
    decide
  have hsplit : (syscallInstr lstar s).execs syscallEntry =
      (((onKernelStack lstar s).exec (.pushGs offScratchRsp)).execs
        (entryRegs.map .push)).handOver := rfl
  rw [hsplit, hscratch, Cpu.execs_push (by decide), hmap, ← Cpu.pushes_cons, entryRegs_values]

/-- The dispatcher finds the caller's registers, its address, its flags and its stack pointer
in the frame, on the kernel stack that the block of the core names. Nothing is written but the
frame and the scratch word of the block. -/
theorem syscallEntry_frame (lstar : Word) (s : Cpu) :
    let e := (syscallInstr lstar s).execs syscallEntry
    let top := load s.mem s.kernelGsBase
    Holds e.mem e.rsp (syscallFrameOf s).words ∧ e.regs .rdi = e.rsp ∧ e.rsp = top - 80 ∧
      (∀ r ∈ calleeSaved, e.regs r = s.regs r) ∧ e.gsBase = s.kernelGsBase ∧
      e.kernelGsBase = s.gsBase ∧ ∀ x, 8 ≤ (x - (s.kernelGsBase + 8)).toNat →
        80 ≤ (x - (top - 80)).toNat → e.mem x = s.mem x := by
  have hrsp : ((onKernelStack lstar s).pushes (syscallFrameOf s).words.reverse).rsp =
      load s.mem s.kernelGsBase - 80 := by
    rw [Cpu.pushes_rsp, onKernelStack_rsp]
    rfl
  have hhold := (onKernelStack lstar s).pushes_holds (syscallFrameOf s).words.reverse
    (by simp [SyscallFrame.words]) holds_nil
  have hsame := (onKernelStack lstar s).pushes_same (syscallFrameOf s).words.reverse
  have hwithin := (onKernelStack lstar s).pushes_within (syscallFrameOf s).words.reverse
    (by simp [SyscallFrame.words])
  rw [List.reverse_reverse, List.append_nil] at hhold
  rw [hrsp] at hwithin
  rw [syscallEntry_eq]
  simp only [Cpu.handOver_mem, Cpu.handOver_rsp, Cpu.handOver_rdi, Cpu.handOver_gsBase,
    Cpu.handOver_kernelGsBase]
  refine ⟨hhold, trivial, hrsp, fun r hr => ?_, hsame.gsBase, hsame.kernelGsBase,
    fun x hscratch hstack => ?_⟩
  · have hne : r ≠ .rsp ∧ r ≠ .rcx ∧ r ≠ .r11 ∧ r ≠ .rdi := by
      revert r
      decide
    rw [Cpu.handOver_regs_of_ne _ hne.2.2.2, hsame.regs r hne.1, onKernelStack_regs hne.1,
      syscallInstr_regs hne.2.1 hne.2.2.1]
  · exact (hwithin x hstack).trans (store_of_le _ _ hscratch)

/-! ### The ways back -/

section exit

theorem frameRegs_words (h : Holds s.mem s.rsp f.words) :
    frameRegs.map (s.pops frameRegs).regs =
      [f.rax, f.rdi, f.rsi, f.rdx, f.r10, f.r8, f.r9, f.rip, f.rflags] :=
  Cpu.pops_map [f.userRsp] (by decide) (by decide) h rfl

/-- What either way back makes of the registers that the frame does not hold. -/
structure Returned (f : SyscallFrame) (s t : Cpu) : Prop where
  resumes : ResumesUser f t
  saved : ∀ r ∈ calleeSaved, t.regs r = s.regs r
  gsBase : t.gsBase = s.kernelGsBase
  kernelGsBase : t.kernelGsBase = s.gsBase

/-- The registers that are not popped, and the bases. -/
theorem frameRegs_rest : (s.pops frameRegs).mem = s.mem ∧ (s.pops frameRegs).rsp = s.rsp + 72 ∧
    (∀ r ∈ calleeSaved, (s.pops frameRegs).regs r = s.regs r) ∧
    (s.pops frameRegs).gsBase = s.gsBase ∧ (s.pops frameRegs).kernelGsBase = s.kernelGsBase := by
  refine ⟨Cpu.pops_mem, Cpu.pops_rsp (by decide), fun r hr => ?_, Cpu.pops_gs⟩
  have hne : r ∉ frameRegs ∧ r ≠ .rsp := by
    revert r
    decide
  exact Cpu.pops_regs_of_notMem hne.1 hne.2

theorem fastReturn_returned (h : Holds s.mem s.rsp f.words) (hcan : isCanonical f.rip = true)
    (hflags : f.rflags &&& sysretFlags ||| 2 = f.rflags) :
    ∃ t, sysretq (s.execs fastReturn) = some t ∧ Returned f s t := by
  have hwords := frameRegs_words h
  have hcx : (s.pops frameRegs).regs .rcx = f.rip :=
    Cpu.pops_regs (by decide) (by decide) h (i := 7) rfl rfl
  have h11 : (s.pops frameRegs).regs .r11 = f.rflags :=
    Cpu.pops_regs (by decide) (by decide) h (i := 8) rfl rfl
  obtain ⟨hmem, hrsp, hsaved, hgs, hkgs⟩ := frameRegs_rest (s := s)
  have hexec : s.execs fastReturn = ((s.pops frameRegs).pop .rsp).exec .swapgs := rfl
  obtain ⟨q, hq⟩ : ∃ q, q = s.pops frameRegs := ⟨_, rfl⟩
  rw [← hq] at hwords hcx h11 hmem hrsp hsaved hgs hkgs hexec
  have hregs (r : Reg) (hr : r ≠ .rsp) : ((q.pop .rsp).exec .swapgs).regs r = q.regs r :=
    Cpu.pop_regs_of_ne hr hr
  have huser : ((q.pop .rsp).exec .swapgs).regs .rsp = f.userRsp := by
    refine Eq.trans (Cpu.pop_regs_self (s := q) (r := .rsp)) ?_
    rw [hmem, hrsp]
    exact h 9 f.userRsp rfl
  have hall : frameRegs.map ((q.pop .rsp).exec .swapgs).regs = frameRegs.map q.regs := by
    refine List.map_congr_left fun r hr => hregs r ?_
    revert r
    decide
  rw [hexec, sysretq, hregs .rcx (by decide), hcx, if_pos hcan, hregs .r11 (by decide), h11, hflags]
  refine ⟨_, rfl, ⟨?_, rfl, rfl, rfl, rfl⟩, fun r hr => ?_, hkgs, hgs⟩
  · rw [List.map_append, hall, hwords, List.map_singleton, huser]
    rfl
  · have hne : r ≠ .rsp := by
      revert r
      decide
    exact (hregs r hne).trans (hsaved r hr)

/-- The words for `iretq`, the last one pushed first. -/
def iretWords (f : SyscallFrame) : List Word :=
  [f.rip, userCode.setWidth 64, f.rflags, f.userRsp, userData.setWidth 64]

/-- The scratch word of the block carries the stack pointer of ring 3 past the pops. -/
theorem slowReturn_eq (h : Holds s.mem s.rsp f.words)
    (hblock : Apart (s.gsBase + 8) 8 s.rsp 80) :
    ∃ q : Cpu, s.execs slowReturn = (q.pushes (iretWords f).reverse).exec .swapgs ∧
      frameRegs.map q.regs = [f.rax, f.rdi, f.rsi, f.rdx, f.r10, f.r8, f.r9, f.rip, f.rflags] ∧
      (∀ r ∈ calleeSaved, q.regs r = s.regs r) ∧ q.gsBase = s.gsBase ∧
      q.kernelGsBase = s.kernelGsBase := by
  obtain ⟨s₁, hs₁⟩ : ∃ x, x = (s.exec (.load .rax .rsp 72)).exec (.storeGs offScratchRsp .rax) :=
    ⟨_, rfl⟩
  have hmem₁ : s₁.mem = store s.mem (s.gsBase + 8) f.userRsp := by
    rw [← show load s.mem (s.rsp + 72) = f.userRsp from h 9 f.userRsp rfl, hs₁]
    exact congrArg (store _ _) Cpu.setReg_self
  have hregs₁ (r : Reg) (hr : r ≠ .rax) : s₁.regs r = s.regs r := by
    rw [hs₁]
    exact Cpu.setReg_of_ne (s := s) hr
  have hgs₁ : s₁.gsBase = s.gsBase ∧ s₁.kernelGsBase = s.kernelGsBase := by
    rw [hs₁]
    exact ⟨rfl, rfl⟩
  have hrsp₁ : s₁.rsp = s.rsp := hregs₁ .rsp (by decide)
  have hhold : Holds s₁.mem s₁.rsp f.words := by
    rw [hmem₁, hrsp₁]
    exact h.within (within_store s.mem (s.gsBase + 8) f.userRsp) hblock.symm
  have hwords := frameRegs_words hhold
  have hcx : (s₁.pops frameRegs).regs .rcx = f.rip :=
    Cpu.pops_regs (by decide) (by decide) hhold (i := 7) rfl rfl
  have h11 : (s₁.pops frameRegs).regs .r11 = f.rflags :=
    Cpu.pops_regs (by decide) (by decide) hhold (i := 8) rfl rfl
  obtain ⟨hmem, hrsp, hsaved, hgs, hkgs⟩ := frameRegs_rest (s := s₁)
  -- from here on the frame is popped, and its eighty bytes are free for the words of `iretq`
  obtain ⟨q, hq⟩ : ∃ x, x = (s₁.pops frameRegs).exec (.add .rsp 8) := ⟨_, rfl⟩
  have hexec : s.execs slowReturn =
      (((((q.push (userData.setWidth 64)).exec (.pushGs offScratchRsp)).exec
        (.push .r11)).push (userCode.setWidth 64)).exec (.push .rcx)).exec .swapgs := by
    rw [hq, hs₁]
    rfl
  have hregs (r : Reg) (hr : r ≠ .rsp) : q.regs r = (s₁.pops frameRegs).regs r := by
    rw [hq]
    exact Cpu.setReg_of_ne hr
  have hqmem : q.mem = s₁.mem := by
    rw [hq]
    exact hmem
  have hqgs : q.gsBase = s.gsBase ∧ q.kernelGsBase = s.kernelGsBase := by
    rw [hq]
    exact ⟨hgs.trans hgs₁.1, hkgs.trans hgs₁.2⟩
  have hqrsp : q.rsp - 8 = s.rsp + 72 := by
    have hadd : q.rsp = (s₁.pops frameRegs).rsp + 8 := by
      rw [hq]
      exact Cpu.setReg_self
    rw [hadd, BitVec.add_sub_cancel, hrsp, hrsp₁]
  have hscratch : (q.push (userData.setWidth 64)).exec (.pushGs offScratchRsp) =
      (q.push (userData.setWidth 64)).push f.userRsp := by
    have hfar : Apart (q.gsBase + offScratchRsp) 8 (q.rsp - 8) 8 := by
      rw [hqrsp, hqgs.1]
      exact (hblock.symm.word (i := 9) (by decide)).symm
    rw [Cpu.push_exec_pushGs hfar, hqmem, hmem₁, hqgs.1]
    exact congrArg _ (load_store_same ..)
  have hreg (x : Cpu) (r : Reg) (w : Word) (hx : x.regs r = w) : x.exec (.push r) = x.push w := by
    rw [← hx]
    rfl
  refine ⟨q, ?_, ?_, ?_, hqgs⟩
  · rw [hexec, hscratch, hreg _ .r11 f.rflags, hreg _ .rcx f.rip]
    · rfl
    · rw [Cpu.push_regs_of_ne (by decide), Cpu.push_regs_of_ne (by decide),
        Cpu.push_regs_of_ne (by decide), Cpu.push_regs_of_ne (by decide), hregs _ (by decide), hcx]
    · rw [Cpu.push_regs_of_ne (by decide), Cpu.push_regs_of_ne (by decide), hregs _ (by decide),
        h11]
  · rw [← hwords]
    refine List.map_congr_left fun r hr => hregs r ?_
    revert r
    decide
  · intro r hr
    have hne : r ≠ .rsp ∧ r ≠ .rax := by
      revert r
      decide
    rw [hregs r hne.1, hsaved r hr, hregs₁ r hne.2]

theorem slowReturn_returned (h : Holds s.mem s.rsp f.words)
    (hblock : Apart (s.gsBase + 8) 8 s.rsp 80) : Returned f s (s.execs slowReturn).iretq := by
  obtain ⟨q, hexec, hwords, hsaved, hgs, hkgs⟩ := slowReturn_eq h hblock
  have hsame := q.pushes_same (iretWords f).reverse
  have hhold := q.pushes_holds (iretWords f).reverse (by simp [iretWords]) holds_nil
  rw [List.reverse_reverse, List.append_nil] at hhold
  obtain ⟨p, hp⟩ : ∃ p, p = q.pushes (iretWords f).reverse := ⟨_, rfl⟩
  rw [← hp] at hexec hsame hhold
  rw [hexec]
  have hregs (r : Reg) (hr : r ≠ .rsp) : (p.exec .swapgs).iretq.regs r = q.regs r :=
    (Cpu.iretq_regs_of_ne hr).trans (hsame.regs r hr)
  have huser : (p.exec .swapgs).iretq.regs .rsp = f.userRsp :=
    Cpu.iretq_rsp.trans (hhold 3 f.userRsp rfl)
  have hrip : load p.mem p.rsp = f.rip := by
    have hzero := hhold 0 f.rip rfl
    rwa [Nat.mul_zero, BitVec.add_zero] at hzero
  refine ⟨⟨?_, hrip, hhold 2 f.rflags rfl, hhold 1 _ rfl, hhold 4 _ rfl⟩, fun r hr => ?_,
    hsame.kernelGsBase.trans hkgs, hsame.gsBase.trans hgs⟩
  · have hall : frameRegs.map (p.exec .swapgs).iretq.regs = frameRegs.map q.regs := by
      refine List.map_congr_left fun r hr => hregs r ?_
      revert r
      decide
    rw [List.map_append, hall, hwords, List.map_singleton, huser]
    rfl
  · have hne : r ≠ .rsp := by
      revert r
      decide
    exact (hregs r hne).trans (hsaved r hr)

end exit

/-- The kernel runs with every flag of `FMASK` clear. -/
theorem syscallEntry_flags :
    ((syscallInstr lstar s).execs syscallEntry).rflags &&& fmask = 0 := by
  have hflags : ((syscallInstr lstar s).execs syscallEntry).rflags =
      s.rflags &&& ~~~fmask &&& ~~~flagDF := rfl
  rw [hflags]
  ext i hi
  simp only [BitVec.getElem_and, BitVec.getElem_not]
  cases fmask[i] <;> simp

/-- A system call that returns hands ring 3 the frame as the handler leaves it, its callee-saved
registers and its `gs` base, by `sysretq` where the address is canonical and by `iretq` where it
is not, so never by a `sysretq` that faults in ring 0. -/
theorem syscall_round_trip {handler : SyscallFrame → SyscallFrame} {s' : Cpu}
    (hd : SyscallDispatched handler ((syscallInstr lstar s).execs syscallEntry) s')
    (hblock : Apart (s'.gsBase + 8) 8 (load s.mem s.kernelGsBase - 80) 80)
    (hflags : (handler (syscallFrameOf s)).rflags &&& sysretFlags ||| 2 =
      (handler (syscallFrameOf s)).rflags) :
    let e := (syscallInstr lstar s).execs syscallEntry
    Holds e.mem (e.regs .rdi) (syscallFrameOf s).words ∧ e.rflags &&& fmask = 0 ∧
      ∃ t, syscallReturn s' = some t ∧ ResumesUser (handler (syscallFrameOf s)) t ∧
        (∀ r ∈ calleeSaved, t.regs r = s.regs r) ∧ t.gsBase = s.gsBase ∧
        t.kernelGsBase = s'.gsBase := by
  obtain ⟨hframe, hrdi, hrsp, hsaved, -, hkgs, -⟩ := syscallEntry_frame lstar s
  have hhold := hframe
  rw [← hrdi] at hhold
  obtain ⟨hleft, hrax⟩ := hd.frame _ hhold
  rw [hrdi, ← hd.rsp] at hleft
  refine ⟨hhold, syscallEntry_flags, ?_⟩
  have hback : ∃ t, syscallReturn s' = some t ∧ Returned (handler (syscallFrameOf s)) s' t := by
    cases hcan : isCanonical (handler (syscallFrameOf s)).rip with
    | true =>
      have hzero : s'.regs .rax = 0 := by
        rw [hrax, returnPath, hcan]
        rfl
      rw [syscallReturn, if_pos hzero]
      exact fastReturn_returned hleft hcan hflags
    | false =>
      have hone : s'.regs .rax ≠ 0 := by
        rw [hrax, returnPath, hcan]
        decide
      rw [syscallReturn, if_neg hone]
      refine ⟨_, rfl, slowReturn_returned hleft ?_⟩
      rwa [hd.rsp, hrsp]
  obtain ⟨t, ht, hret⟩ := hback
  refine ⟨t, ht, hret.resumes, fun r hr => ?_, ?_, hret.kernelGsBase⟩
  · rw [hret.saved r hr, hd.saved r hr, hsaved r hr]
  · rw [hret.gsBase, hd.kernelGsBase, hkgs]

/-- Ring 3 at `0x400000`, on a core whose block is at `0x1000`. -/
def calling : Cpu :=
  ⟨fun r => if r = .rsp then 0x7000 else 0, fun _ => 0, 0x400000, 0x202, 0x2B, 0x23, 0, 0x1000⟩

/-- A dispatcher that changes nothing answers zero where the address is canonical. -/
theorem dispatched_id (e : Cpu)
    (h : ∀ f : SyscallFrame, Holds e.mem (e.regs .rdi) f.words → isCanonical f.rip = true) :
    SyscallDispatched id e (e.setReg .rax 0) := by
  refine ⟨Cpu.setReg_of_ne (by decide), fun r hr => Cpu.setReg_of_ne ?_, rfl,
    fun f hf => ⟨hf, ?_⟩⟩
  · revert r
    decide
  · rw [Cpu.setReg_self, returnPath, id, h f hf]
    rfl

theorem calling_dispatched : SyscallDispatched id ((syscallInstr 0 calling).execs syscallEntry)
    (((syscallInstr 0 calling).execs syscallEntry).setReg .rax 0) := by
  refine dispatched_id _ fun f hf => ?_
  obtain ⟨hframe, hrdi, -⟩ := syscallEntry_frame 0 calling
  rw [hrdi] at hf
  have hload := hf 7 f.rip rfl
  rw [hframe 7 calling.rip rfl] at hload
  rw [← hload]
  decide

theorem syscall_round_trip_calling : ∃ t, ResumesUser (syscallFrameOf calling) t := by
  obtain ⟨t, -, ht, -⟩ := (syscall_round_trip calling_dispatched (by
    rw [show load calling.mem calling.kernelGsBase = 0 by decide]
    show Apart (0x1000 + 8) 8 (0 - 80) 80
    decide) (by decide)).2.2
  exact ⟨t, ht⟩

end lemmas

end StarOs.Arch
