import StarOs.Bootinfo.Handoff
import StarOs.Kernel.AddressSpace
import StarOs.Paging.Requests
import StarOs.Paging.Wrapping

/-! The kernel's own tree: the linear map, the sections of the image at their own rights, the
screen when it ends beyond the linear map, and the walk that refuses a tree in which something
the switch needs is missing. -/

namespace StarOs.Kernel

open Bootinfo Library Paging

def minLinear : UInt64 := 4 * size1G

/-- The symbols of the linker script, and what the script says of them. `here` is in the code
of `verify` and `stack` in its frame on the boot stack. -/
structure ImageLayout where
  textStart : UInt64
  textEnd : UInt64
  rodataStart : UInt64
  rodataEnd : UInt64
  dataStart : UInt64
  bssEnd : UInt64
  stackGuard : UInt64
  stackBottom : UInt64
  stackTop : UInt64
  here : UInt64
  stack : UInt64
  starts : textStart = kernelVma
  text : textEnd.toNat % 4096 = 0 ∧ textStart.toNat ≤ here.toNat ∧ here.toNat < textEnd.toNat
  rodata : rodataStart.toNat % 4096 = 0 ∧ rodataEnd.toNat % 4096 = 0 ∧
    textEnd.toNat ≤ rodataStart.toNat ∧ rodataStart.toNat ≤ rodataEnd.toNat
  data : dataStart.toNat % 4096 = 0 ∧ bssEnd.toNat % 4096 = 0 ∧
    rodataEnd.toNat ≤ dataStart.toNat ∧ dataStart.toNat < bssEnd.toNat
  guard : stackGuard = bssEnd ∧ stackBottom.toNat = bssEnd.toNat + 4096
  boot : stackTop.toNat = stackBottom.toNat + 65536 ∧ stackBottom.toNat ≤ stack.toNat ∧
    stack.toNat < stackTop.toNat

/-- How much memory the image takes from its first byte to the top of its stack. -/
def ImageLayout.size (img : ImageLayout) : UInt64 := img.stackTop - img.textStart

/-- The sections as `init` places them. -/
def ImageLayout.sections (img : ImageLayout) : List (UInt64 × UInt64 × Rights) :=
  [(img.textStart, img.textEnd, Rights.rx), (img.rodataStart, img.rodataEnd, Rights.ro),
    (img.dataStart, img.bssEnd, Rights.rw), (img.stackBottom, img.stackTop, Rights.rw)]

section

variable {σ : Type} (F : FrameSource σ) (mapper : Mapper) (img : ImageLayout)

def place (kernelPhys start stop : UInt64) (rights : Rights) (s : σ) : Except String Unit × σ :=
  if stop ≤ start then (.ok (), s)
  else
    let phys := kernelPhys + (start - img.textStart)
    match mapper.map F start phys (stop - start) rights s with
    | (.error e, s) => (.error e.asStr, s)
    | (.ok (), s) => (.ok (), s)

/-- The calls of `place`, one after the other. -/
def placeSections (kernelPhys : UInt64) :
    List (UInt64 × UInt64 × Rights) → σ → Except String Unit × σ
  | [], s => (.ok (), s)
  | (start, stop, rights) :: rest, s =>
    match place F mapper img kernelPhys start stop rights s with
    | (.error e, s) => (.error e, s)
    | (.ok (), s) => placeSections kernelPhys rest s

/-- `phys.saturating_add(bytes())` -/
def screenEnd (fb : Framebuffer) : UInt64 :=
  if fb.phys.toNat + fb.bytes.toNat < 2 ^ 64 then fb.phys + fb.bytes else 0xFFFFFFFFFFFFFFFF

/-- The screen's own mapping, made when it ends beyond the linear map. -/
def mapScreen (linearBytes : UInt64) (framebuffer : Option Framebuffer) (s : σ) :
    Except String Unit × σ :=
  match framebuffer with
  | none => (.ok (), s)
  | some fb =>
    let endAddr := screenEnd fb
    if endAddr > linearBytes then
      let base := fb.phys &&& ~~~(pageSize - 1)
      let len := nextMultipleOf (endAddr - base) pageSize
      match mapper.map F (physMapBase + base) base len Rights.rw s with
      | (.error e, s) => (.error e.asStr, s)
      | (.ok (), s) => (.ok (), s)
    else (.ok (), s)

/-- `is_none_or(|t| !t.rights.write)` -/
def unwritable (t : Option Translation) : Bool := t.all (!·.rights.write)

/-- The last checks of `verify`: the data, and the two absences. -/
def verifyAbsent (s : σ) : Except String Unit :=
  match mapper.translate F img.dataStart s with
  | none => .error "kernel data is not mapped"
  | some data =>
    if data.rights.exec then .error "kernel data is executable"
    else if (mapper.translate F 0 s).isSome then
      .error "address zero is still mapped: a null dereference would not fault"
    else if (mapper.translate F img.stackGuard s).isSome then
      .error "the stack guard page is mapped: an overflow would not fault"
    else .ok ()

/-- The checks of `verify` from the one of the read-only data on. -/
def verifyRodata (s : σ) : Except String Unit :=
  if img.rodataStart < img.rodataEnd then
    match mapper.translate F img.rodataStart s with
    | none => .error "kernel rodata is not mapped"
    | some t =>
      if t.rights.write || t.rights.exec then .error "kernel rodata is writable or executable"
      else verifyAbsent F mapper img s
  else verifyAbsent F mapper img s

/-- The address of the last byte of the screen is not mapped for writing. -/
def screenLost (framebuffer : Option Framebuffer) (s : σ) : Bool :=
  match framebuffer with
  | none => false
  | some fb => unwritable (mapper.translate F (physToVirt (fb.phys + fb.bytes - 1)) s)

def verify (framebuffer : Option Framebuffer) (s : σ) : Except String Unit :=
  match mapper.translate F img.here s with
  | none => .error "the code doing the switch is not mapped"
  | some text =>
    if !text.rights.exec then .error "kernel text is mapped no-execute"
    else if text.rights.write then
      .error "kernel text is mapped writable: W^X is not being enforced"
    else if unwritable (mapper.translate F img.stack s) then
      .error "the kernel stack is not mapped writable"
    else if unwritable (mapper.translate F physMapBase s) then
      .error "the linear map is missing or read-only"
    else if screenLost F mapper framebuffer s then
      .error "the framebuffer the console is drawing on is not mapped"
    else verifyRodata F mapper img s

def linearBytes (highestRam : UInt64) : UInt64 :=
  nextMultipleOf (max highestRam minLinear) size1G

/-- `init`, of which it models the tree: the answer is the tree and `linear_bytes`. -/
def init (gibPages : Bool) (kernelPhys highestRam : UInt64) (framebuffer : Option Framebuffer)
    (s : σ) : Except String (Tables × UInt64) × σ :=
  match Mapper.new F gibPages s with
  | (.error e, s) => (.error e.asStr, s)
  | (.ok mapper, s) =>
    let linear := linearBytes highestRam
    match mapper.map F physMapBase 0 linear Rights.rw s with
    | (.error e, s) => (.error e.asStr, s)
    | (.ok (), s) =>
      match placeSections F mapper img kernelPhys img.sections s with
      | (.error e, s) => (.error e, s)
      | (.ok (), s) =>
        match mapScreen F mapper linear framebuffer s with
        | (.error e, s) => (.error e, s)
        | (.ok (), s) =>
          match verify F mapper img framebuffer s with
          | .error e => (.error e, s)
          | .ok () => (.ok (⟨mapper.root, gibPages⟩, linear), s)

end

/-! ### The calls it makes -/

/-- A section that is not empty, as a call. -/
def sectionCall (img : ImageLayout) (kernelPhys : UInt64) :
    UInt64 × UInt64 × Rights → Option Call
  | (start, stop, rights) =>
    if stop ≤ start then none
    else some ⟨start, kernelPhys + (start - img.textStart), stop - start, rights, .normal⟩

/-- The calls before the one for the screen. -/
def initCalls (img : ImageLayout) (kernelPhys linear : UInt64) : List Call :=
  ⟨physMapBase, 0, linear, Rights.rw, .normal⟩ ::
    img.sections.filterMap (sectionCall img kernelPhys)

def screenCall (fb : Framebuffer) : Call :=
  ⟨physMapBase + fb.base, fb.base, nextMultipleOf (screenEnd fb - fb.base) pageSize, Rights.rw,
    .normal⟩

/-- All the calls of `init`. -/
def allCalls (img : ImageLayout) (kernelPhys linear : UInt64) (fb : Framebuffer) : List Call :=
  initCalls img kernelPhys linear ++ if screenEnd fb > linear then [screenCall fb] else []

/-- The outcome of calls, with the text of the error. -/
def told {σ : Type} (res : Except MapError Unit × σ) : Except String Unit × σ :=
  match res with
  | (.error e, s) => (.error e.asStr, s)
  | (.ok (), s) => (.ok (), s)

section

variable {σ : Type} {F : FrameSource σ} {held : σ → Set UInt64} {mapper : Mapper}
  {img : ImageLayout} {kernelPhys linear : UInt64} {fb : Framebuffer} {s s' : σ}

theorem placeSections_eq (l : List (UInt64 × UInt64 × Rights)) :
    placeSections F mapper img kernelPhys l s =
      told (Call.performAll F mapper (l.filterMap (sectionCall img kernelPhys)) s) := by
  induction l generalizing s with
  | nil => rfl
  | cons section' rest ih =>
    obtain ⟨start, stop, rights⟩ := section'
    rw [placeSections, place, List.filterMap_cons]
    by_cases hempty : stop ≤ start
    · rw [if_pos hempty, sectionCall, if_pos hempty]
      exact ih
    · rw [if_neg hempty, sectionCall, if_neg hempty]
      dsimp only
      rw [Call.performAll]
      change _ = told (match mapper.map F start _ _ rights s with
        | (.error e, s) => (.error e, s)
        | (.ok (), s) => _)
      rcases mapper.map F start (kernelPhys + (start - img.textStart)) (stop - start) rights s with
        ⟨_ | _, s₁⟩
      · rfl
      · exact ih

theorem ImageLayout.size_toNat (img : ImageLayout) :
    kernelVma.toNat + img.size.toNat = img.stackTop.toNat := by
  have hstarts := congrArg UInt64.toNat img.starts
  have htext := img.text
  have hrodata := img.rodata
  have hdata := img.data
  have hguard := img.guard.2
  have hboot := img.boot.1
  rw [ImageLayout.size, UInt64.toNat_sub_of_le _ _ (UInt64.le_iff_toNat_le.mpr (by omega))]
  omega

/-- Where the sections lie: in order, on whole pages, in the kernel's part. -/
theorem ImageLayout.sections_spec (img : ImageLayout) :
    (∀ sec ∈ img.sections, sec.1.toNat % 4096 = 0 ∧ sec.2.1.toNat % 4096 = 0 ∧
      kernelVma.toNat ≤ sec.1.toNat ∧ sec.2.1.toNat ≤ img.stackTop.toNat) ∧
    img.sections.Pairwise fun a b => a.2.1.toNat ≤ b.1.toNat := by
  have hstarts := congrArg UInt64.toNat img.starts
  have hK : kernelVma.toNat = 4096 * (2 ^ 52 - 2 ^ 19) := rfl
  obtain ⟨ht, ht₁, ht₂⟩ := img.text
  obtain ⟨hr, hr₁, hr₂, hr₃⟩ := img.rodata
  obtain ⟨hd, hd₁, hd₂, hd₃⟩ := img.data
  have hguard := img.guard.2
  have hboot := img.boot.1
  unfold ImageLayout.sections
  constructor
  · simp only [List.forall_mem_cons, List.not_mem_nil, IsEmpty.forall_iff, implies_true, and_true]
    refine ⟨⟨?_, ?_, ?_, ?_⟩, ⟨?_, ?_, ?_, ?_⟩, ⟨?_, ?_, ?_, ?_⟩, ?_, ?_, ?_, ?_⟩ <;> omega
  · simp only [List.pairwise_cons, List.forall_mem_cons, List.not_mem_nil, IsEmpty.forall_iff,
      implies_true, and_true, List.Pairwise.nil]
    refine ⟨⟨?_, ?_, ?_⟩, ⟨?_, ?_⟩, ?_⟩ <;> omega

/-- What a section's call asks for. -/
theorem sectionCall_spec {sec : UInt64 × UInt64 × Rights} {c : Call}
    (h : sectionCall img kernelPhys sec = some c) :
    c = ⟨sec.1, kernelPhys + (sec.1 - img.textStart), sec.2.1 - sec.1, sec.2.2, .normal⟩ ∧
      sec.1.toNat < sec.2.1.toNat ∧
        ∀ v, c.Covers v ↔ sec.1.toNat ≤ v.toNat ∧ v.toNat < sec.2.1.toNat := by
  obtain ⟨start, stop, rights⟩ := sec
  rw [sectionCall] at h
  split at h
  · cases h
  · next hlt =>
    rw [UInt64.le_iff_toNat_le] at hlt
    obtain rfl := Option.some.inj h
    have hsize : (stop - start).toNat = stop.toNat - start.toNat :=
      UInt64.toNat_sub_of_le _ _ (UInt64.le_iff_toNat_le.mpr (by omega))
    refine ⟨rfl, by dsimp only; omega, fun v => ?_⟩
    simp only [Call.Covers, hsize]
    omega

/-- `init` makes its calls on a new tree, and asks `verify` for the answer. -/
theorem init_eq {gib : Bool} {highestRam : UInt64} :
    init F img gib kernelPhys highestRam (some fb) s =
      match Mapper.new F gib s with
      | (.error e, s) => (.error e.asStr, s)
      | (.ok mapper, s) =>
        match told (Call.performAll F mapper
          (allCalls img kernelPhys (linearBytes highestRam) fb) s) with
        | (.error e, s) => (.error e, s)
        | (.ok (), s) =>
          match verify F mapper img (some fb) s with
          | .error e => (.error e, s)
          | .ok () => (.ok (⟨mapper.root, gib⟩, linearBytes highestRam), s) := by
  rw [init]
  rcases Mapper.new F gib s with ⟨_ | mapper, s₁⟩
  · rfl
  simp only [placeSections_eq, allCalls, initCalls, List.cons_append, Call.performAll, Call.perform]
  rcases mapper.map F physMapBase 0 (linearBytes highestRam) Rights.rw s₁ with ⟨_ | _, s₂⟩
  · rfl
  dsimp only
  rw [performAll_append]
  rcases Call.performAll F mapper (img.sections.filterMap (sectionCall img kernelPhys)) s₂ with
    ⟨_ | _, s₃⟩
  · rfl
  dsimp only [told, mapScreen]
  by_cases hown : screenEnd fb > linearBytes highestRam
  · rw [if_pos hown, if_pos hown, Call.performAll, Call.perform]
    dsimp only [screenCall, Framebuffer.base]
    rcases mapper.map F (physMapBase + (fb.phys &&& ~~~(pageSize - 1))) _ _ Rights.rw s₃ with
      ⟨_ | _, s₄⟩ <;> rfl
  · rw [if_neg hown, if_neg hown]
    rfl

theorem mem_sectionCalls {c : Call} : c ∈ img.sections.filterMap (sectionCall img kernelPhys) ↔
    ∃ sec ∈ img.sections, sectionCall img kernelPhys sec = some c := List.mem_filterMap

/-! ### What it asks its source for -/

theorem asStr_outOfFrames {e : MapError} (h : e.asStr = MapError.outOfFrames.asStr) :
    e = .outOfFrames := by
  cases e with
  | outOfFrames => rfl
  | misaligned => exact absurd h (by decide)
  | largePageCollision => exact absurd h (by decide)

theorem noted_told {notes : List (Option UInt64)} {run : Except MapError Unit × σ}
    {noted : Except MapError Unit × σ × List (Option UInt64)}
    (h : Noted .outOfFrames notes run noted) :
    Noted MapError.outOfFrames.asStr notes (told run) (told noted) := by
  obtain ⟨new, rfl, hnew⟩ := h
  obtain ⟨e | _, s⟩ := run
  · refine ⟨new, rfl, hnew.trans ⟨fun heq => ?_, fun heq => ?_⟩⟩
    · rw [Except.error.inj heq]
      rfl
    · rw [asStr_outOfFrames (Except.error.inj heq)]
  · exact ⟨new, rfl, hnew.trans (by simp [told])⟩

/-- `verify` asks for no table, and none of its answers is about one. -/
theorem verify_ne (framebuffer : Option Framebuffer) :
    verify F mapper img framebuffer s ≠ .error MapError.outOfFrames.asStr := by
  unfold verify verifyRodata verifyAbsent
  repeat' split
  all_goals simp [MapError.asStr]

theorem verify_noted (notes : List (Option UInt64)) (framebuffer : Option Framebuffer) :
    verify F.noted mapper img framebuffer (s, notes) = verify F mapper img framebuffer s := by
  simp only [verify, verifyRodata, verifyAbsent, screenLost, translate_noted]
  rfl

/-- It gives up for want of a table exactly when a request of its own was refused. -/
theorem init_answered {gib : Bool} {highestRam : UInt64} :
    none ∈ tableAnswers (init F.noted img gib kernelPhys highestRam (some fb)) s ↔
      (init F img gib kernelPhys highestRam (some fb) s).1 = .error MapError.outOfFrames.asStr := by
  refine Noted.answered ?_
  obtain ⟨new, heq, hnew⟩ := new_noted F [] s gib
  rw [init_eq, init_eq, heq]
  rcases hroot : Mapper.new F gib s with ⟨e | mapper, s₁⟩ <;> rw [hroot] at hnew
  · exact ⟨new, rfl, hnew.trans ⟨fun heq => by rw [Except.error.inj heq], fun heq => by
      rw [asStr_outOfFrames (Except.error.inj heq)]⟩⟩
  · refine Noted.after ?_ (hnew.trans (by simp : _ ↔ (Except.ok mapper : Except String Mapper) = _))
    obtain ⟨later, hrun, hlater⟩ := noted_told (performAll_noted F mapper (new ++ []) s₁
      (allCalls img kernelPhys (linearBytes highestRam) fb))
    dsimp only
    rw [hrun]
    rcases hcalls : told (Call.performAll F mapper _ s₁) with ⟨e | _, s₂⟩ <;> rw [hcalls] at hlater
    · exact .stop s₂ hlater
    · refine Noted.after ?_ hlater
      dsimp only
      rw [verify_noted]
      cases hverify : verify F mapper img (some fb) s₂ with
      | error e =>
        have hne := hverify ▸ verify_ne (some fb)
        exact .still s₂ fun heq => hne (by rw [Except.error.inj heq])
      | ok => exact .still s₂ nofun

/-! ### What `verify` asks of the tree -/

/-- The rights the tree gives at an address. -/
def rightsAt (F : FrameSource σ) (mapper : Mapper) (s : σ) (v : UInt64) : Option Rights :=
  (mapper.translate F v s).map Translation.rights

/-- Where `verify` looks for the screen. -/
def screenLast (fb : Framebuffer) : UInt64 := physToVirt (fb.phys + fb.bytes - 1)

structure Verified (rights : UInt64 → Option Rights) (img : ImageLayout) (fb : Framebuffer) :
    Prop where
  text : ∃ r, rights img.here = some r ∧ r.exec ∧ ¬r.write
  stack : ∃ r, rights img.stack = some r ∧ r.write
  linear : ∃ r, rights physMapBase = some r ∧ r.write
  screen : ∃ r, rights (screenLast fb) = some r ∧ r.write
  rodata : img.rodataStart < img.rodataEnd →
    ∃ r, rights img.rodataStart = some r ∧ ¬r.write ∧ ¬r.exec
  data : ∃ r, rights img.dataStart = some r ∧ ¬r.exec
  zero : rights 0 = none
  guard : rights img.stackGuard = none

theorem unwritable_iff {o : Option Translation} : unwritable o = false ↔
    ∃ r, o.map Translation.rights = some r ∧ r.write := by
  cases o <;> simp [unwritable]

theorem verifyAbsent_ok_iff : verifyAbsent F mapper img s = .ok () ↔
    (∃ r, rightsAt F mapper s img.dataStart = some r ∧ ¬r.exec) ∧ rightsAt F mapper s 0 = none ∧
      rightsAt F mapper s img.stackGuard = none := by
  unfold verifyAbsent rightsAt
  cases mapper.translate F img.dataStart s with
  | none => simp
  | some data =>
    cases hx : data.rights.exec
    · cases mapper.translate F 0 s
      · cases mapper.translate F img.stackGuard s <;> simp [hx]
      · simp [hx]
    · simp [hx]

theorem verifyRodata_ok_iff : verifyRodata F mapper img s = .ok () ↔
    (img.rodataStart < img.rodataEnd →
      ∃ r, rightsAt F mapper s img.rodataStart = some r ∧ ¬r.write ∧ ¬r.exec) ∧
      verifyAbsent F mapper img s = .ok () := by
  unfold verifyRodata rightsAt
  by_cases hlt : img.rodataStart < img.rodataEnd
  · cases mapper.translate F img.rodataStart s with
    | none => simp [hlt]
    | some t => cases hw : t.rights.write <;> cases hx : t.rights.exec <;> simp [hlt, hw, hx]
  · simp [hlt]

theorem verify_ok_iff : verify F mapper img (some fb) s = .ok () ↔
    Verified (rightsAt F mapper s) img fb := by
  have hok : verify F mapper img (some fb) s = .ok () ↔
      (∃ r, rightsAt F mapper s img.here = some r ∧ r.exec ∧ ¬r.write) ∧
      unwritable (mapper.translate F img.stack s) = false ∧
      unwritable (mapper.translate F physMapBase s) = false ∧
      unwritable (mapper.translate F (screenLast fb) s) = false ∧
      verifyRodata F mapper img s = .ok () := by
    unfold verify rightsAt screenLost screenLast
    cases mapper.translate F img.here s with
    | none => simp
    | some text =>
      by_cases hrx : text.rights.exec ∧ ¬text.rights.write
      · by_cases hstack : unwritable (mapper.translate F img.stack s) = false
        · by_cases hlinear : unwritable (mapper.translate F physMapBase s) = false
          · by_cases hlast :
              unwritable (mapper.translate F (physToVirt (fb.phys + fb.bytes - 1)) s) = false
            · simp [hrx, hstack, hlinear, hlast]
            · simp [hrx, hstack, hlinear, hlast]
          · simp [hrx, hstack, hlinear]
        · simp [hrx, hstack]
      · by_cases hx : text.rights.exec
        · have hw : text.rights.write := not_not.mp fun hw => hrx ⟨hx, hw⟩
          simp [hx, hw]
        · simp [hx]
  rw [hok, verifyRodata_ok_iff, verifyAbsent_ok_iff, unwritable_iff, unwritable_iff, unwritable_iff]
  exact ⟨fun ⟨h₁, h₂, h₃, h₄, h₅, h₆, h₇, h₈⟩ => ⟨h₁, h₂, h₃, h₄, h₅, h₆, h₇, h₈⟩,
    fun ⟨h₁, h₂, h₃, h₄, h₅, h₆, h₇, h₈⟩ => ⟨h₁, h₂, h₃, h₄, h₅, h₆, h₇, h₈⟩⟩

/-! ### Where its calls lie -/

/-- The sections' calls are in range and do not meet. -/
theorem sectionCalls_fresh (img : ImageLayout) (halign : kernelPhys.toNat % 4096 = 0)
    (hphys : kernelPhys.toNat + img.size.toNat ≤ 2 ^ 52) :
    (∀ c ∈ img.sections.filterMap (sectionCall img kernelPhys),
      InRange c.virt c.phys c.size ∧ kernelVma.toNat ≤ c.virt.toNat) ∧
      (img.sections.filterMap (sectionCall img kernelPhys)).Pairwise
        fun c d => ∀ v, c.Covers v → ¬d.Covers v := by
  have hK : kernelVma.toNat = 2 ^ 64 - 2 ^ 31 := rfl
  have hsize := img.size_toNat
  obtain ⟨hplaces, horder⟩ := img.sections_spec
  constructor
  · intro c hc
    obtain ⟨sec, hsec, hcall⟩ := mem_sectionCalls.mp hc
    obtain ⟨hstart, hstop, hlo, hhi⟩ := hplaces sec hsec
    obtain ⟨rfl, hlt, -⟩ := sectionCall_spec hcall
    have hlen : (sec.2.1 - sec.1).toNat = sec.2.1.toNat - sec.1.toNat :=
      UInt64.toNat_sub_of_le _ _ (UInt64.le_iff_toNat_le.mpr hlt.le)
    have hoff : (sec.1 - img.textStart).toNat = sec.1.toNat - kernelVma.toNat := by
      rw [img.starts]
      exact UInt64.toNat_sub_of_le _ _ (UInt64.le_iff_toNat_le.mpr hlo)
    have hat : (kernelPhys + (sec.1 - img.textStart)).toNat =
        kernelPhys.toNat + (sec.1.toNat - kernelVma.toNat) := by
      rw [UInt64.toNat_add, hoff, Nat.mod_eq_of_lt]
      omega
    have htop := img.stackTop.toNat_lt
    refine ⟨⟨hstart, ?_, ?_, .inr ⟨?_, ?_⟩, ?_⟩, hlo⟩ <;> dsimp only <;> omega
  · refine List.Pairwise.filterMap _ (fun a b hab c hc d hd v hcov hcov' => ?_) horder
    have hfirst := ((sectionCall_spec hc).2.2 v).mp hcov
    have hsecond := ((sectionCall_spec hd).2.2 v).mp hcov'
    omega

theorem initCalls_range (img : ImageLayout) (halign : kernelPhys.toNat % 4096 = 0)
    (hphys : kernelPhys.toNat + img.size.toNat ≤ 2 ^ 52) (hlinear : linear.toNat % 4096 = 0)
    (hreach : linear.toNat ≤ 2 ^ 47) :
    ∀ c ∈ initCalls img kernelPhys linear, InRange c.virt c.phys c.size := by
  have hP := toNat_physMapBase
  have hzero : (0 : UInt64).toNat = 0 := rfl
  intro c hc
  obtain rfl | hc := List.mem_cons.mp hc
  · refine ⟨?_, ?_, hlinear, .inr ⟨?_, ?_⟩, ?_⟩ <;> dsimp only <;> omega
  · exact ((sectionCalls_fresh img halign hphys).1 c hc).1

/-- A section answers for its addresses, over the linear map. -/
theorem initAnswer_section (halign : kernelPhys.toNat % 4096 = 0)
    (hphys : kernelPhys.toNat + img.size.toNat ≤ 2 ^ 52) {sec : UInt64 × UInt64 × Rights}
    (hsec : sec ∈ img.sections) {v : UInt64} (hlo : sec.1.toNat ≤ v.toNat)
    (hhi : v.toNat < sec.2.1.toNat) : Call.lastAnswer (initCalls img kernelPhys linear) v =
      some (kernelPhys + (v - img.textStart), sec.2.2, .normal) := by
  obtain ⟨c, hc⟩ : ∃ c, sectionCall img kernelPhys sec = some c := by
    obtain ⟨start, stop, rights⟩ := sec
    dsimp only at hlo hhi
    exact ⟨_, if_neg (by rw [UInt64.le_iff_toNat_le]; omega)⟩
  obtain ⟨rfl, -, hcov⟩ := sectionCall_spec hc
  rw [initCalls, lastAnswer_cons, lastAnswer_of_mem (sectionCalls_fresh img halign hphys).2
    (mem_sectionCalls.mpr ⟨sec, hsec, hc⟩) ((hcov v).mpr ⟨hlo, hhi⟩)]
  have hoff : kernelPhys + (sec.1 - img.textStart) + (v - sec.1) =
      kernelPhys + (v - img.textStart) := by grind
  exact congrArg some (Prod.ext hoff rfl)

/-- Beside the sections there is only the linear map. -/
theorem initAnswer_beside {v : UInt64}
    (hsecs : ∀ sec ∈ img.sections, ¬(sec.1.toNat ≤ v.toNat ∧ v.toNat < sec.2.1.toNat)) :
    Call.lastAnswer (initCalls img kernelPhys linear) v =
      if physMapBase.toNat ≤ v.toNat ∧ v.toNat < physMapBase.toNat + linear.toNat then
        some (v - physMapBase, Rights.rw, .normal)
      else none := by
  rw [initCalls, lastAnswer_cons, lastAnswer_eq_none, Option.none_or]
  · refine if_congr Iff.rfl ?_ rfl
    simp [Call.answer]
  · intro c hc hcov
    obtain ⟨sec, hsec, hcall⟩ := mem_sectionCalls.mp hc
    exact hsecs sec hsec (((sectionCall_spec hcall).2.2 v).mp hcov)

theorem linearBytes_whole (highestRam : UInt64) : (linearBytes highestRam).toNat % 2 ^ 30 = 0 := by
  unfold linearBytes nextMultipleOf
  generalize max highestRam minLinear = x
  have hgib : size1G.toNat = 2 ^ 30 := rfl
  split
  · next hmod =>
    rw [← hgib, ← UInt64.toNat_mod, beq_iff_eq.mp hmod]
    rfl
  · have hlt := Nat.mod_lt x.toNat (show 0 < 2 ^ 30 by omega)
    rw [UInt64.toNat_add, UInt64.toNat_sub_of_le _ _ (UInt64.le_iff_toNat_le.mpr (by
      rw [UInt64.toNat_mod, hgib]; omega)), UInt64.toNat_mod, hgib]
    omega

end

end StarOs.Kernel
