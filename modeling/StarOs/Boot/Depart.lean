import StarOs.Boot.Run
import StarOs.Bootinfo.Convert
import StarOs.Paging.Effects

/-! Leaving the firmware. Nothing is allocated once the loader has asked to leave, the map it
hands over is the one that was current when the services ended, and from then on no step fails. -/

namespace StarOs.Boot

open Bootinfo Elf64 Library LoaderM Paging

section

variable {φ α β : Type} {fw : Firmware φ} {C : Contract fw} {s s' s₁ : Loader φ}

/-! ### What is called -/

/-- Nothing called between the two states asks to leave. -/
def Staying (s s' : Loader φ) : Prop :=
  ∃ new, s'.calls = new ++ s.calls ∧ ∀ c ∈ new, ∀ status, c ≠ Service.exitBootServices status

theorem Staying.refl (s : Loader φ) : Staying s s := ⟨[], rfl, by simp⟩

theorem Staying.trans {s₂ : Loader φ} (h : Staying s s₁) (h' : Staying s₁ s₂) : Staying s s₂ := by
  obtain ⟨new, hnew, hstay⟩ := h
  obtain ⟨new', hnew', hstay'⟩ := h'
  refine ⟨new' ++ new, by rw [hnew', hnew, List.append_assoc], fun c hc => ?_⟩
  exact (List.mem_append.mp hc).elim (hstay' c) (hstay c)

/-- A part of the loader that does not ask to leave. -/
abbrev Stays (x : LoaderM φ α) : Prop := Within Staying x

theorem Stays.bind {x : LoaderM φ α} {f : α → LoaderM φ β} (hx : Stays x) (hf : ∀ a, Stays (f a)) :
    Stays (x >>= f) := Within.bind (fun h h' => h.trans h') hx hf

theorem stays_of_calls {x : LoaderM φ α} (h : ∀ s, (x s).2.calls = s.calls) : Stays x :=
  fun s => ⟨[], h s, by simp⟩

theorem stays_pure (a : α) : Stays (pure a : LoaderM φ α) := stays_of_calls fun _ => rfl

theorem stays_fail (e : Alloc.Error) : Stays (fail e : LoaderM φ α) := stays_of_calls fun _ => rfl

theorem stays_call (f : φ → α × φ) : Stays (call f) := stays_of_calls fun _ => rfl

theorem stays_store (f : PhysMemory → PhysMemory) : Stays (store f : LoaderM φ Unit) :=
  stays_of_calls fun _ => rfl

theorem stays_memory : Stays (memory : LoaderM φ PhysMemory) := stays_of_calls fun _ => rfl

theorem stays_check (stage : String) (status : Status) : Stays (check stage status : LoaderM φ Unit) := by
  unfold check
  split
  · exact stays_fail _
  · exact stays_pure _

theorem stays_lift {ε : Type} (text : ε → String) (r : Except ε α) :
    Stays (lift text r : LoaderM φ α) := by
  cases r with
  | error e => exact stays_fail _
  | ok a => exact stays_pure a

theorem stays_record {c : Service} (h : ∀ status, c ≠ .exitBootServices status) :
    Stays (record c : LoaderM φ Unit) :=
  fun s => ⟨[c], rfl, fun c' hc => by rw [List.mem_singleton.mp hc]; exact h⟩

theorem stays_allocPages (stage : String) (pages : ℕ) : Stays (allocPages fw stage pages) := by
  unfold allocPages
  split
  · exact stays_fail _
  · refine (stays_call _).bind fun reply => (stays_record (by simp)).bind fun _ => ?_
    exact (stays_check _ _).bind fun _ => (stays_store _).bind fun _ => stays_pure _

/-- The page tables are made of pages and stores alone. -/
theorem staying_effect (fw : Firmware φ) : Effect (bootServiceFrames fw) Staying where
  refl := Staying.refl
  trans := Staying.trans
  alloc s := by
    have halloc := @stays_allocPages _ fw "allocate page table" 1 s
    dsimp only [bootServiceFrames]
    split
    · next page s₁ heq =>
      rw [heq] at halloc
      exact halloc
    · next e s₁ heq =>
      rw [heq] at halloc
      exact halloc
  write s _ _ _ := Staying.refl s

theorem stays_told {x : Loader φ → Except MapError α × Loader φ} (h : ∀ s, Staying s (x s).2) :
    Stays (told x) := by
  intro s
  have hx := h s
  unfold told
  split
  · next e s₁ heq =>
    rw [heq] at hx
    exact hx
  · next a s₁ heq =>
    rw [heq] at hx
    exact hx

theorem stays_map (tables : PageTables) (virt phys size : UInt64) (r : Paging.Rights) :
    Stays (mapPages fw tables virt phys size r) :=
  stays_told fun s => (staying_effect fw).mapAs tables virt phys size r .normal s

theorem staying_performAll (tables : PageTables) (cs : List Call) (s : Loader φ) :
    Staying s (Call.performAll (bootServiceFrames fw) tables cs s).2 := by
  induction cs generalizing s with
  | nil => exact Staying.refl s
  | cons c cs ih =>
    have hstep : Staying s (c.perform (bootServiceFrames fw) tables s).2 := by
      rw [perform_eq]
      exact (staying_effect fw).mapAs tables c.virt c.phys c.size c.rights c.memoryType s
    rw [Call.performAll]
    split
    · next e s₁ heq =>
      rw [heq] at hstep
      exact hstep
    · next s₁ heq =>
      rw [heq] at hstep
      exact hstep.trans (ih s₁)

theorem staying_mapMemory (tables : PageTables) (mapped : UInt64) (fb : Framebuffer) (s : Loader φ) :
    Staying s (mapMemory (bootServiceFrames fw) tables mapped fb s).2 := by
  have hend : (mapMemory (bootServiceFrames fw) tables mapped fb s).2 =
      (Call.performAll (bootServiceFrames fw) tables (memoryCalls mapped fb) s).2 :=
    congrArg Prod.snd mapMemory_eq
  rw [hend]
  exact staying_performAll tables _ s

theorem stays_getMemoryMap (buf size : UInt64) : Stays (getMemoryMap fw buf size) :=
  (stays_call _).bind fun _ => (stays_record (by simp)).bind fun _ =>
    (stays_store _).bind fun _ => stays_pure _

theorem stays_memoryMapSize : Stays (memoryMapSize fw) := by
  refine (stays_getMemoryMap 0 0).bind fun reply => Stays.bind ?_ fun _ => ?_
  · split
    · exact stays_check _ _
    · exact stays_pure _
  · split
    · exact stays_fail _
    · exact stays_pure _

theorem stays_readFile (path : List UInt16) (what : String) : Stays (readFile fw path what) := by
  refine (stays_call _).bind fun file => ?_
  split
  · exact stays_fail _
  · refine (stays_call _).bind fun info => (stays_check _ _).bind fun _ => ?_
    split
    · exact stays_fail _
    · refine (stays_allocPages _ _).bind fun phys => (stays_call _).bind fun reply => ?_
      refine (stays_store _).bind fun _ => (stays_check _ _).bind fun _ => (stays_call _).bind fun _ => ?_
      split
      · exact stays_fail _
      · exact (stays_store _).bind fun _ => stays_pure _

theorem stays_readInitrd : Stays (readInitrd fw) := by
  intro s
  have hread := @stays_readFile _ fw initrdPath "initramfs" s
  unfold readInitrd
  split
  · next l s₁ heq =>
    rw [heq] at hread
    exact hread
  · next e s₁ heq =>
    rw [heq] at hread
    split
    · exact hread
    · exact hread

theorem stays_handleProtocol (p : Protocol) (stage : String) : Stays (handleProtocol fw p stage) := by
  refine (stays_call _).bind fun reply => (stays_check _ _).bind fun _ => ?_
  split
  · exact stays_pure _
  · exact stays_fail _

theorem stays_loadSegments (tables : PageTables) (kernelPhys vbase : UInt64)
    (l : List (Except ElfError Segment)) : Stays (loadSegments fw tables kernelPhys vbase l) := by
  induction l with
  | nil => exact stays_pure _
  | cons item rest ih =>
    cases item with
    | error e => exact stays_fail _
    | ok seg =>
      rw [loadSegments]
      split
      · exact stays_fail _
      · exact (stays_store _).bind fun _ => (stays_map _ _ _ _ _).bind fun _ => ih

theorem stays_placeKernel (gib : Bool) (elf : Elf) : Stays (placeKernel fw gib elf) := by
  refine (stays_lift _ _).bind fun span => ?_
  obtain ⟨vbase, vsize⟩ := span
  dsimp only
  split
  · exact stays_fail _
  · refine (stays_allocPages _ _).bind fun phys => ?_
    refine (stays_told fun s => (staying_effect fw).new gib s).bind fun tables => ?_
    exact (stays_loadSegments _ _ _ _).bind fun _ => stays_pure _

theorem stays_mapAll (tables : PageTables) (fb : Screen) : Stays (mapAll fw tables fb) := by
  refine Stays.bind ?_ fun mapped =>
    (stays_told fun s => staying_mapMemory tables mapped fb.toFramebuffer s).bind fun _ => stays_pure _
  refine stays_memoryMapSize.bind fun (len, _) => (stays_allocPages _ _).bind fun buf => ?_
  refine (stays_getMemoryMap _ _).bind fun reply => (stays_check _ _).bind fun _ => ?_
  exact stays_memory.bind fun m => (stays_lift _ _).bind fun _ => stays_pure _

theorem stays_reserve : Stays (reserve fw) := by
  refine (stays_allocPages _ _).bind fun info => stays_memoryMapSize.bind fun (len, size) => ?_
  exact (stays_allocPages _ _).bind fun buf => (stays_allocPages _ _).bind fun _ => stays_pure _

/-- Up to the last steps nothing asks to leave. -/
theorem stays_prepare (gib : Bool) : Stays (prepare fw gib) := by
  refine ((stays_call _).bind fun _ => stays_pure _ : Stays (locateFramebuffer fw)).bind fun fb => ?_
  refine Stays.bind ?_ fun _ => (stays_readFile _ _).bind fun kernel => ?_
  · refine (stays_handleProtocol _ _).bind fun _ => (stays_handleProtocol _ _).bind fun _ => ?_
    exact (stays_call _).bind fun _ => stays_check _ _
  · refine stays_readInitrd.bind fun initrd => stays_memory.bind fun m => (stays_lift _ _).bind fun elf => ?_
    refine (stays_placeKernel _ _).bind fun (phys, size, tables) => (stays_mapAll _ _).bind fun mapped => ?_
    exact stays_reserve.bind fun r => stays_pure _

/-! ### What is reserved -/

theorem mem_copy_nil (m : PhysMemory) (a : ℕ) : m.copy a [] = m :=
  funext fun x => PhysMemory.copy_apart (by rw [List.length_nil]; omega)

/-- The size is asked for without a buffer, and nothing is written. -/
theorem memoryMapSize_ok {len size : UInt64} (h : memoryMapSize fw s = (.ok (len, size), s')) :
    C.given s'.fw = C.given s.fw ∧ s'.mem = s.mem ∧ size = C.stride := by
  obtain ⟨reply, s₁, hmap, h⟩ := bind_ok h
  obtain ⟨u, s₂, hcheck, h⟩ := bind_ok h
  obtain ⟨hreply, rfl⟩ := Prod.ext_iff.mp hmap
  obtain rfl := Except.ok.inj hreply
  have hgiven := C.mapped (n := 0) (s := s.fw) rfl
  have hnil : (fw.getMemoryMap 0 s.fw).1.bytes = [] :=
    List.length_eq_zero_iff.mp (Nat.le_zero.mp hgiven.2)
  have hstride : (fw.getMemoryMap 0 s.fw).1.descriptorSize = C.stride ∧
      (getMemoryMap fw 0 0 s).2 = s₂ := by
    change (if (fw.getMemoryMap 0 s.fw).1.status ≠ _ then _ else _ : LoaderM φ Unit) _ = _ at hcheck
    split at hcheck
    · obtain ⟨hok, heq⟩ := check_ok hcheck
      exact ⟨C.strided (n := 0) (s := s.fw) rfl (.inl hok), heq⟩
    · next hsmall =>
      exact ⟨C.strided (n := 0) (s := s.fw) rfl (.inr (not_not.mp hsmall)), (pure_ok hcheck).2⟩
  obtain ⟨hsize, rfl⟩ := hstride
  change (if (fw.getMemoryMap 0 s.fw).1.descriptorSize = 0 then _ else _ : LoaderM φ _) _ = _ at h
  split at h
  · cases h
  · obtain ⟨hpair, rfl⟩ := pure_ok h
    refine ⟨hgiven.1, ?_, (Prod.ext_iff.mp hpair).2.symm.trans hsize⟩
    change s.mem.copy 0 (fw.getMemoryMap 0 s.fw).1.bytes = s.mem
    rw [hnil, mem_copy_nil]

/-- What is reserved is large enough and lies apart from all the loader had before. -/
structure Room (C : Contract fw) (s s' : Loader φ) (r : Reserved) : Prop where
  kept : Kept C s s'
  size : r.descSize = C.stride
  capacity : r.regionCapacity = 4096 * r.mapPages / C.stride.toNat
  pages : 0 < r.mapPages ∧ 4096 * r.mapPages ≤ 2 ^ 52
  info : r.infoPhys ∈ C.given s'.fw
  infoClear : Clear C s r.infoPhys.toNat 4096
  mapClear : Clear C s r.mapBuf.toNat (4096 * r.mapPages)
  regionsClear : Clear C s r.regionsPhys.toNat (24 * r.regionCapacity)
  apart : r.infoPhys.toNat + 4096 ≤ r.regionsPhys.toNat ∨
    r.regionsPhys.toNat + 24 * r.regionCapacity ≤ r.infoPhys.toNat

theorem reserve_ok {r : Reserved} (h : reserve fw s = (.ok r, s')) : Room C s s' r := by
  obtain ⟨info, s₁, hinfo, h⟩ := bind_ok h
  obtain ⟨⟨len, size⟩, s₂, hsize, h⟩ := bind_ok h
  obtain ⟨buf, s₃, hbuf, h⟩ := bind_ok h
  obtain ⟨regions, s₄, hregions, h⟩ := bind_ok h
  obtain ⟨rfl, rfl⟩ := pure_ok h
  have hi := allocPages_ok (C := C) hinfo
  obtain ⟨hgiven, hmem, rfl⟩ := memoryMapSize_ok (C := C) hsize
  have hb := allocPages_ok (C := C) hbuf
  have hr := allocPages_ok (C := C) hregions
  have hasked : Kept C s₁ s₂ := ⟨hgiven.ge, fun q _ => hmem ▸ .refl⟩
  have hbound := hb.bound
  have hstride := C.stride_le
  unfold memoryDescriptorSize at hstride
  set pages := pagesFor (len + mapSlackDescriptors * C.stride) with hpages
  -- the array takes no more than the pages allocated for it
  have hfits : 24 * (4096 * pages / C.stride.toNat) ≤ 4096 *
      pagesFor (UInt64.ofNat (4096 * pages / C.stride.toNat * memoryRegionSize)) := by
    have hdiv : 4096 * pages / C.stride.toNat ≤ 4096 * pages := Nat.div_le_self _ _
    have hword : (UInt64.ofNat (4096 * pages / C.stride.toNat * memoryRegionSize)).toNat =
        4096 * pages / C.stride.toNat * 24 := by
      rw [UInt64.toNat_ofNat_of_lt']
      · rfl
      · rw [UInt64.size, memoryRegionSize]
        omega
    rw [pagesFor, hword]
    omega
  have hbefore : C.given s.fw ⊆ C.given s₂.fw := (hi.kept.trans hasked).given
  have hin : info ∈ C.given s₁.fw := hi.mem_given hi.aligned le_rfl (by omega)
  have hin₃ : info ∈ C.given s₃.fw := hb.kept.given (hasked.given hin)
  have hclear := hr.clear
  refine ⟨hi.kept.trans (hasked.trans (hb.kept.trans hr.kept)), rfl, rfl,
    ⟨hb.pos, (Nat.le_add_left _ _).trans hbound⟩,
    hr.kept.given hin₃, ?_, hb.clear.mono hbefore, ?_, ?_⟩
  · intro q hq
    have := hi.clear q hq
    omega
  · intro q hq
    have := hclear q (hb.kept.given (hbefore hq))
    dsimp only
    omega
  · have := hclear info hin₃
    dsimp only
    omega

/-! ### Leaving -/

/-- The map in the buffer is the firmware's. -/
def Current (C : Contract fw) (r : Reserved) (size : UInt64) (s : Loader φ) : Prop :=
  size.toNat ≤ 4096 * r.mapPages ∧
    descriptors (sliceAt r.mapBuf.toNat size.toNat s.mem) C.stride.toNat = C.map s.fw

/-- Only the buffer of the map has changed. -/
structure Attempted (C : Contract fw) (r : Reserved) (s s' : Loader φ) : Prop where
  given : C.given s'.fw = C.given s.fw
  mem : ∀ x, x < r.mapBuf.toNat ∨ r.mapBuf.toNat + 4096 * r.mapPages ≤ x → s'.mem x = s.mem x

theorem Attempted.trans {r : Reserved} (h : Attempted C r s s₁) (h' : Attempted C r s₁ s') :
    Attempted C r s s' :=
  ⟨h'.given.trans h.given, fun x hx => (h'.mem x hx).trans (h.mem x hx)⟩

theorem sliceAt_copy (m : PhysMemory) (a : ℕ) {bytes : List UInt8} (h : bytes.length ≤ isizeMax) :
    (sliceAt a bytes.length (m.copy a bytes)).bytes = bytes := by
  change PhysMemory.bytesAt a (min bytes.length isizeMax) (m.copy a bytes) = bytes
  rw [Nat.min_eq_left h]
  exact PhysMemory.bytesAt_copy m a bytes

/-- The machine once the map is in its buffer. -/
def withMap (fw : Firmware φ) (r : Reserved) (s : Loader φ) : Loader φ :=
  (getMemoryMap fw r.mapBuf (UInt64.ofNat (4096 * r.mapPages)) s).2

theorem tryToLeave_error {r : Reserved} {e : Alloc.Error}
    (h : tryToLeave fw r s = (.error e, s')) : s'.calls = .getMemoryMap :: s.calls := by
  unfold tryToLeave check at h
  rw [bind_apply] at h
  change (_ >>= _ : LoaderM φ _) (withMap fw r s) = _ at h
  rw [bind_apply] at h
  split at h
  · next e' s₁ hcheck =>
    obtain rfl := (Prod.ext_iff.mp h).2
    split at hcheck
    · obtain rfl := (Prod.ext_iff.mp hcheck).2
      rfl
    · cases hcheck
  · cases h

/-- A turn that got an answer to its key. -/
theorem tryToLeave_ok {r : Reserved} {status : Status} {size : UInt64}
    (hpages : 4096 * r.mapPages ≤ 2 ^ 52) (h : tryToLeave fw r s = (.ok (status, size), s')) :
    s'.calls = .exitBootServices status :: .getMemoryMap :: s.calls ∧ Attempted C r s s' ∧
      (status = Status.success → Current C r size s') := by
  obtain ⟨reply, s₁, hmap, h⟩ := bind_ok h
  obtain ⟨u, s₂, hcheck, h⟩ := bind_ok h
  obtain ⟨status', s₃, hexit, h⟩ := bind_ok h
  obtain ⟨hpair, rfl⟩ := pure_ok h
  obtain ⟨rfl, rfl⟩ := Prod.ext_iff.mp hpair
  obtain ⟨hreply, rfl⟩ := Prod.ext_iff.mp hmap
  obtain ⟨hok, rfl⟩ := check_ok hcheck
  obtain ⟨hstatus, rfl⟩ := Prod.ext_iff.mp hexit
  obtain rfl := Except.ok.inj hreply
  obtain rfl := Except.ok.inj hstatus
  set n := UInt64.ofNat (4096 * r.mapPages) with hn
  have hword : n.toNat = 4096 * r.mapPages :=
    UInt64.toNat_ofNat_of_lt' (by rw [UInt64.size]; omega)
  have hraw : fw.getMemoryMap n s.fw = ((fw.getMemoryMap n s.fw).1, (fw.getMemoryMap n s.fw).2) := rfl
  obtain ⟨hgiven, hlen⟩ := C.mapped hraw
  obtain ⟨hsize, hkey, hmap⟩ := C.described hraw hok
  obtain ⟨hgiven', hcurrent⟩ := C.exited (k := (fw.getMemoryMap n s.fw).1.key)
    (s := (fw.getMemoryMap n s.fw).2) rfl
  refine ⟨rfl, ⟨hgiven'.trans hgiven, fun x hx => PhysMemory.copy_apart (by omega)⟩, fun hsuccess => ?_⟩
  -- the key was still current when the services ended, and so was the map
  have hsame := C.keyed (hkey.symm.trans (hcurrent hsuccess))
  refine ⟨by change (fw.getMemoryMap n s.fw).1.size.toNat ≤ _; omega, ?_⟩
  change descriptors (sliceAt r.mapBuf.toNat (fw.getMemoryMap n s.fw).1.size.toNat
    (s.mem.copy r.mapBuf.toNat (fw.getMemoryMap n s.fw).1.bytes)) _ = _
  rw [hsize, hmap _ (sliceAt_copy _ _ (by unfold isizeMax; omega))]
  exact hsame

/-- What has been called by the time the loader is done leaving, whether it got away or not. -/
structure Asked {γ : Type} (n : ℕ) (new : List Service) (out : Except Alloc.Error γ) : Prop where
  noPages : ∀ k, .allocatePages k ∉ new
  few : new.countP (· matches .exitBootServices _) ≤ n
  failed : ∀ e, out = .error e → .exitBootServices Status.success ∉ new
  left : ∀ c, out = .ok c → ∃ rest, new = .exitBootServices Status.success :: rest ∧
    .exitBootServices Status.success ∉ rest

theorem Asked.failing {γ : Type} {e : Alloc.Error} {n : ℕ} {new : List Service}
    (hpages : ∀ k, .allocatePages k ∉ new)
    (hfew : new.countP (· matches .exitBootServices _) ≤ n)
    (hstay : .exitBootServices Status.success ∉ new) :
    Asked n new (.error e : Except Alloc.Error γ) :=
  ⟨hpages, hfew, fun _ _ => hstay, fun c hc => by cases hc⟩

/-- A turn that ended the services. -/
theorem asked_success (size : UInt64) (n : ℕ) :
    Asked (n + 1) [.exitBootServices Status.success, .getMemoryMap]
      (.ok size : Except Alloc.Error UInt64) :=
  ⟨by simp, by simp, fun e he => (by cases he), fun _ _ => ⟨_, rfl, by simp⟩⟩

theorem asked_failure {γ : Type} {status : Status} (e : Alloc.Error) (n : ℕ)
    (h : status ≠ Status.success) :
    Asked (n + 1) [.exitBootServices status, .getMemoryMap] (.error e : Except Alloc.Error γ) :=
  Asked.failing (by simp) (by simp) (by simpa using h.symm)

theorem leave_calls (C : Contract fw) {r : Reserved} (hpages : 4096 * r.mapPages ≤ 2 ^ 52) (n : ℕ)
    (s : Loader φ) : ∃ new, (leave fw r n s).2.calls = new ++ s.calls ∧
      Asked (n + 1) new (leave fw r n s).1 := by
  induction n generalizing s with
  | zero =>
    rw [leave, bind_apply]
    split
    · next e s₁ h =>
      exact ⟨[.getMemoryMap], tryToLeave_error h, Asked.failing (by simp) (by simp) (by simp)⟩
    · next a s₁ h =>
      obtain ⟨status, size⟩ := a
      obtain ⟨hcalls, -, -⟩ := tryToLeave_ok (C := C) hpages h
      dsimp only
      split
      · next hs =>
        subst hs
        exact ⟨_, hcalls, asked_success size 0⟩
      · next hs => exact ⟨[.exitBootServices status, .getMemoryMap], hcalls, asked_failure _ 0 hs⟩
  | succ n ih =>
    rw [leave, bind_apply]
    split
    · next e s₁ h =>
      exact ⟨[.getMemoryMap], tryToLeave_error h, Asked.failing (by simp) (by simp) (by simp)⟩
    · next a s₁ h =>
      obtain ⟨status, size⟩ := a
      obtain ⟨hcalls, -, -⟩ := tryToLeave_ok (C := C) hpages h
      dsimp only
      split
      · next hs =>
        subst hs
        exact ⟨_, hcalls, asked_success size (n + 1)⟩
      · next hs =>
        split
        · exact ⟨[.exitBootServices status, .getMemoryMap], hcalls, asked_failure _ (n + 1) hs⟩
        · obtain ⟨new, hnew, hasked⟩ := ih s₁
          have hstale : .exitBootServices Status.success ∉
              [Service.exitBootServices status, .getMemoryMap] := by simpa using Ne.symm hs
          refine ⟨new ++ [.exitBootServices status, .getMemoryMap], ?_, ?_, ?_, ?_, ?_⟩
          · rw [hnew, hcalls, List.append_assoc]
            rfl
          · intro k hk
            exact (List.mem_append.mp hk).elim (hasked.noPages k) (by simp)
          · have := hasked.few
            simp only [List.countP_append] at *
            simpa using this
          · intro e he hin
            exact (List.mem_append.mp hin).elim (hasked.failed e he) hstale
          · intro c hc
            obtain ⟨rest, rfl, hrest⟩ := hasked.left c hc
            exact ⟨_, rfl, fun hin => (List.mem_append.mp hin).elim hrest hstale⟩

/-- The services ended with the map that is in the buffer. -/
theorem leave_ok {r : Reserved} (hpages : 4096 * r.mapPages ≤ 2 ^ 52) {n : ℕ} {size : UInt64}
    (h : leave fw r n s = (.ok size, s')) : Attempted C r s s' ∧ Current C r size s' := by
  induction n generalizing s with
  | zero =>
    rw [leave] at h
    obtain ⟨⟨status, size'⟩, s₁, htry, h⟩ := bind_ok h
    obtain ⟨-, hkept, hcurrent⟩ := tryToLeave_ok (C := C) hpages htry
    dsimp only at h
    split at h
    · next hs =>
      obtain ⟨rfl, rfl⟩ := pure_ok h
      exact ⟨hkept, hcurrent hs⟩
    · cases h
  | succ n ih =>
    rw [leave] at h
    obtain ⟨⟨status, size'⟩, s₁, htry, h⟩ := bind_ok h
    obtain ⟨-, hkept, hcurrent⟩ := tryToLeave_ok (C := C) hpages htry
    dsimp only at h
    split at h
    · next hs =>
      obtain ⟨rfl, rfl⟩ := pure_ok h
      exact ⟨hkept, hcurrent hs⟩
    · split at h
      · cases h
      · obtain ⟨hkept', hcurrent'⟩ := ih h
        exact ⟨hkept.trans hkept', hcurrent'⟩

/-! ### The hand-off -/

/-- There is room for every region of a map that fits its buffer. -/
theorem convert_ok {map : Slice} {size capacity : ℕ} (hsize : memoryDescriptorSize ≤ size)
    (hroom : map.length / size ≤ capacity) :
    convert map size capacity = .ok (coalesced (descriptors map size)) ∧
      (coalesced (descriptors map size)).length ≤ capacity := by
  have hlen := (length_foldl_absorb (descriptors map size) []).2
  rw [length_descriptors, List.length_nil, Nat.zero_add] at hlen
  rw [convert, if_neg (Nat.not_lt.mpr hsize)]
  obtain hok | ⟨needed, -, hfull, -⟩ := @convertFrom_eq [] capacity (descriptors map size)
    (Nat.zero_le capacity)
  · exact hok
  · omega

/-- What `handOff` leaves in memory. -/
def handed (r : Reserved) (info : BootInfo) (regions : List MemoryRegion) (m : PhysMemory) : PhysMemory :=
  (m.copy r.regionsPhys.toNat (regions.flatMap MemoryRegion.encode)).copy r.infoPhys.toNat
    { info with memoryMapLen := UInt32.ofNat regions.length }.bytes

/-- Once the services have ended no step fails. -/
theorem handOff_ok {r : Reserved} {size : UInt64} (info : BootInfo) (hroom : Room C s₁ s r)
    (hcurrent : Current C r size s') :
    handOff r size info s' = (.ok (), { s' with
        mem := handed r info (coalesced (C.map s'.fw)) s'.mem }) ∧
      (coalesced (C.map s'.fw)).length ≤ r.regionCapacity := by
  obtain ⟨hfits, hmap⟩ := hcurrent
  have hbound := hroom.pages.2
  have hslice : (sliceAt r.mapBuf.toNat size.toNat s'.mem).length / C.stride.toNat ≤
      r.regionCapacity := by
    rw [hroom.capacity]
    refine Nat.div_le_div_right ?_
    change (PhysMemory.bytesAt _ _ _).length ≤ _
    rw [PhysMemory.length_bytesAt]
    omega
  obtain ⟨hok, hlen⟩ := convert_ok C.stride_le hslice
  rw [hmap] at hok hlen
  refine ⟨?_, hlen⟩
  simp only [handOff, bind_apply, memory, lift, hroom.size, hok, store]
  rfl

/-- What is read of the hand-off is what was written. -/
theorem handed_read {r : Reserved} (info : BootInfo) (hroom : Room C s₁ s r)
    {regions : List MemoryRegion} (hlen : regions.length ≤ r.regionCapacity) (m : PhysMemory) :
    BootInfo.readAt r.infoPhys.toNat (handed r info regions m) =
        some { info with memoryMapLen := UInt32.ofNat regions.length } ∧
      MemoryRegion.readArray (handed r info regions m) r.regionsPhys.toNat regions.length =
        some regions := by
  refine ⟨BootInfo.readAt_copy _ _ _, ?_⟩
  have harray := length_flatMap_encode regions
  have hinfo := { info with memoryMapLen := UInt32.ofNat regions.length : BootInfo }.length_bytes
  rw [← MemoryRegion.readArray_copy m r.regionsPhys.toNat regions]
  refine MemoryRegion.readArray_congr (PhysMemory.same_copy ?_)
  rw [hinfo]
  have := hroom.apart
  omega

/-! ### The whole sequence -/

/-- The steps that `prepare` went through. -/
structure Steps (fw : Firmware φ) (gib : Bool) (r : Ready) (s₁ s₂ s₃ s' : Loader φ) : Prop where
  place : placeKernel fw gib r.elf s₁ = (.ok (r.info.kernelPhys, r.info.kernelLen, r.tables), s₂)
  map : mapAll fw r.tables r.info.framebuffer s₂ = (.ok r.mapped, s₃)
  reserve : Boot.reserve fw s₃ = (.ok r.reserved, s')
  magic : r.info.magic = BootInfo.magicWord
  version : r.info.version = BootInfo.currentVersion
  memoryMap : r.info.memoryMap = r.reserved.regionsPhys

theorem prepare_ok {gib : Bool} {r : Ready} (h : prepare fw gib s = (.ok r, s')) :
    ∃ s₁ s₂ s₃, Steps fw gib r s₁ s₂ s₃ s' := by
  obtain ⟨framebuffer, t₁, -, h⟩ := bind_ok h
  obtain ⟨u, t₂, -, h⟩ := bind_ok h
  obtain ⟨kernelFile, t₃, -, h⟩ := bind_ok h
  obtain ⟨initrd, t₄, -, h⟩ := bind_ok h
  obtain ⟨m, t₅, -, h⟩ := bind_ok h
  obtain ⟨elf, t₆, -, h⟩ := bind_ok h
  obtain ⟨⟨kernelPhys, vsize, tables⟩, t₇, hplace, h⟩ := bind_ok h
  obtain ⟨mapped, t₈, hmap, h⟩ := bind_ok h
  obtain ⟨room, t₉, hreserve, h⟩ := bind_ok h
  obtain ⟨rfl, rfl⟩ := pure_ok h
  exact ⟨t₆, t₇, t₈, hplace, hmap, hreserve, rfl, rfl, rfl⟩

/-- The way from the reserved pages to the jump. -/
structure Departed (C : Contract fw) (r : Ready) (s₁ s' : Loader φ) : Prop where
  given : C.given s'.fw = C.given s₁.fw
  mem : ∃ m, (∀ x, x < r.reserved.mapBuf.toNat ∨
      r.reserved.mapBuf.toNat + 4096 * r.reserved.mapPages ≤ x → m x = s₁.mem x) ∧
    s'.mem = handed r.reserved r.info (coalesced (C.map s'.fw)) m
  room : (coalesced (C.map s'.fw)).length ≤ r.reserved.regionCapacity

/-- What follows a departure, in a machine with everything reserved: it ends as it began, or at
the jump. -/
theorem depart_spec {s₀ : Loader φ} {r : Ready} (hroom : Room C s₀ s r.reserved) :
    (∃ new, (depart fw r s).2.calls = new ++ s.calls ∧ Asked exitAttempts new (depart fw r s).1) ∧
      ∀ j s', depart fw r s = (.ok j, s') → Departed C r s s' ∧
        j = ⟨r.tables, r.elf.entry, r.reserved.infoPhys, r.elf, r.mapped⟩ := by
  obtain ⟨new, hcalls, hasked⟩ := leave_calls C hroom.pages.2 (exitAttempts - 1) s
  rw [depart, bind_apply]
  cases hleave : leave fw r.reserved (exitAttempts - 1) s with
  | mk out s₁ =>
    rw [hleave] at hcalls hasked
    cases out with
    | error e =>
      refine ⟨⟨new, hcalls, hasked.noPages, hasked.few, fun e' _ => hasked.failed e rfl,
        fun c hc => by cases hc⟩, fun j s' h => by cases h⟩
    | ok size =>
      obtain ⟨hkept, hcurrent⟩ := leave_ok (C := C) hroom.pages.2 hleave
      obtain ⟨hhand, hlen⟩ := handOff_ok r.info hroom hcurrent
      dsimp only
      rw [bind_apply, hhand]
      refine ⟨⟨new, hcalls, hasked.noPages, hasked.few, fun e he => (by cases he),
        fun c _ => hasked.left size rfl⟩, fun j s' h => ?_⟩
      obtain ⟨rfl, rfl⟩ := pure_ok h
      exact ⟨⟨hkept.given, ⟨s₁.mem, hkept.mem, rfl⟩, hlen⟩, rfl⟩

/-- A machine as a loader may find it. -/
def Settling.start : Loader Settling := { fw := ⟨0, false, by decide⟩, mem := fun _ => 0xCC }

/-- The screen the kernel is told of, and how far the maps go. -/
def Settling.entered (out : Except Alloc.Error Jump × Loader Settling) : Option (UInt64 × Screen) :=
  match out with
  | (.error _, _) => none
  | (.ok j, s) => (BootInfo.readAt j.rdi.toNat s.mem).map fun info => (j.mapped, info.framebuffer)

theorem Settling.enters :
    ∃ j s', run (Settling.firmware noteAndLoad.bytes) true Settling.start = (.ok j, s') ∧
      j.mapped = minMapped ∧
      (BootInfo.readAt j.rdi.toNat s'.mem).map (·.framebuffer) = some noFramebuffer := by
  have hend : Settling.entered (run (Settling.firmware noteAndLoad.bytes) true Settling.start) =
      some (minMapped, noFramebuffer) := by decide +kernel
  cases hrun : run (Settling.firmware noteAndLoad.bytes) true Settling.start with
  | mk out s' =>
    rw [hrun] at hend
    cases out with
    | error e => cases hend
    | ok j =>
      obtain ⟨info, hinfo, hpair⟩ := Option.map_eq_some_iff.mp hend
      obtain ⟨hmapped, hscreen⟩ := Prod.ext_iff.mp hpair
      refine ⟨j, s', rfl, hmapped, ?_⟩
      rw [hinfo]
      exact congrArg some hscreen

/-- What the loader leaves for the kernel: at the jump `RDI` points to a hand-off of this version,
and the array it names has, kind for kind, the bytes of the map that was current when the boot
services ended. -/
theorem hands_over (C : Contract fw) {gib : Bool} {j : Jump} (h : run fw gib s = (.ok j, s')) :
    ∃ info regions, BootInfo.readAt j.rdi.toNat s'.mem = some info ∧
      info.magic = BootInfo.magicWord ∧ info.version = BootInfo.currentVersion ∧
      info.memoryMapLen = UInt32.ofNat regions.length ∧
      MemoryRegion.readArray s'.mem info.memoryMap.toNat regions.length = some regions ∧
      regions.flatMap MemoryRegion.bytes = coveredBytes (C.map s'.fw) := by
  obtain ⟨r, s₁, hprepare, hdepart⟩ := bind_ok h
  obtain ⟨t₁, t₂, t₃, hsteps⟩ := prepare_ok hprepare
  have hroom := reserve_ok (C := C) hsteps.reserve
  obtain ⟨hgone, rfl⟩ := (depart_spec hroom).2 j s' hdepart
  obtain ⟨m, -, hmem⟩ := hgone.mem
  obtain ⟨hinfo, harray⟩ := handed_read r.info hroom hgone.room m
  refine ⟨{ r.info with memoryMapLen := UInt32.ofNat (coalesced (C.map s'.fw)).length },
    coalesced (C.map s'.fw), hmem ▸ hinfo, hsteps.magic, hsteps.version,
    rfl, ?_, coalesced_bytes _⟩
  dsimp only
  rw [hsteps.memoryMap, hmem]
  exact harray

end

end StarOs.Boot
