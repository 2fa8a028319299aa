import StarOs.Elf64.Image

/-! The iterator over the segments, with every sum it forms without checking. Over a validated
header none of them overflows, and what it yields is the table's `PT_LOAD` headers, resolved. -/

namespace StarOs.Elf64

open Library

structure Segments where
  image : Slice
  phoff : ℕ
  phentsize : ℕ
  phnum : ℕ
  index : ℕ

/-- `Elf::segments`, and the iterator as it stands after `index` headers. -/
def Elf.iterFrom (e : Elf) (index : ℕ) : Segments := ⟨e.image, e.phoff, e.phentsize, e.phnum, index⟩

namespace Segments

/-- One turn of the loop of `next`: what it returns, or none where it goes on. -/
def turn (it : Segments) : Checked (Option (Except ElfError Segment)) := do
  let skipped ← mul it.index it.phentsize
  let ph ← add it.phoff skipped
  let _ ← add it.index 1
  let flagsAt ← add ph 4
  match readU32 it.image ph, readU32 it.image flagsAt with
  | some type, some flags =>
    if type ≠ ptLoad then .ok none
    else do
      let offsetAt ← add ph 8
      let vaddrAt ← add ph 16
      let fileszAt ← add ph 32
      let memszAt ← add ph 40
      match readU64 it.image offsetAt, readU64 it.image vaddrAt, readU64 it.image fileszAt,
        readU64 it.image memszAt with
      | some offset, some vaddr, some filesz, some memsz =>
        .ok (some (Elf.resolve it.image flags offset vaddr filesz memsz))
      | _, _, _, _ => .ok (some (.error .truncatedProgramHeaders))
  | _, _ => .ok (some (.error .truncatedProgramHeaders))

/-- `Segments::next`: the item, and the iterator after it. -/
def next (it : Segments) : Checked (Option (Except ElfError Segment × Segments)) :=
  if it.index < it.phnum then do
    match ← it.turn with
    | some item => .ok (some (item, { it with index := it.index + 1 }))
    | none => next { it with index := it.index + 1 }
  else .ok none
termination_by it.phnum - it.index

/-- The items up to the first `None`, in at most `turns` calls of `next`. -/
def collect : ℕ → Segments → Checked (List (Except ElfError Segment))
  | 0, _ => .error .unfinished
  | turns + 1, it => do
    match ← it.next with
    | none => .ok []
    | some (item, it) => do
      let l ← collect turns it
      .ok (item :: l)

end Segments

/-! ### Headers -/

/-- `Elf64_Phdr`, of which the loader reads these fields. -/
structure Header where
  type : UInt32
  flags : UInt32
  offset : UInt64
  vaddr : UInt64
  filesz : UInt64
  memsz : UInt64

/-- The number in the `n` bytes from `off` on. -/
def word (image : Slice) (off n : ℕ) : UInt64 := fromLeBytes (image.sub off (off + n)).bytes

namespace Elf

/-- The header at `index` in the table. -/
def header (e : Elf) (index : ℕ) : Header where
  type := (word e.image (e.phoff + index * e.phentsize) 4).toUInt32
  flags := (word e.image (e.phoff + index * e.phentsize + 4) 4).toUInt32
  offset := word e.image (e.phoff + index * e.phentsize + 8) 8
  vaddr := word e.image (e.phoff + index * e.phentsize + 16) 8
  filesz := word e.image (e.phoff + index * e.phentsize + 32) 8
  memsz := word e.image (e.phoff + index * e.phentsize + 40) 8

/-- The item a header yields. -/
def load (image : Slice) (h : Header) : Except ElfError Segment :=
  resolve image h.flags h.offset h.vaddr h.filesz h.memsz

/-- The table holds whole headers and lies in the image. -/
structure Tabled (e : Elf) : Prop where
  phentsize : 56 ≤ e.phentsize
  fits : e.phoff + e.phentsize * e.phnum ≤ e.image.length

section

variable {image : Slice} {e : Elf} {index off n : ℕ}

theorem parseFields_tabled (h : parseFields image = .ok e) : e.image = image ∧ e.Tabled := by
  unfold parseFields at h
  split at h
  · next entry phoff phentsize phnum _ _ _ _ =>
    split at h
    · cases h
    · next hsize =>
      dsimp only at h
      split at h
      · cases h
      · next tableEnd htable =>
        obtain ⟨len, hlen, hend⟩ := Option.bind_eq_some_iff.mp htable
        split at h
        · cases h
        · next hfits =>
          obtain rfl := Except.ok.inj h
          have hmul : len = phentsize.toNat * phnum.toNat := by
            unfold checkedMul at hlen
            split at hlen
            · exact (Option.some.inj hlen).symm
            · cases hlen
          refine ⟨rfl, ?_, ?_⟩
          · exact UInt16.le_iff_toNat_le.mp (UInt16.not_lt.mp hsize)
          · rw [← hmul, ← checkedAdd_eq hend]
            exact Nat.le_of_not_lt hfits
  · cases h

/-- A header that parses leaves a table the walk can rely on. -/
theorem parse_tabled (h : parse image = .ok e) : e.image = image ∧ e.Tabled := by
  unfold parse at h
  split_ifs at h
  exact parseFields_tabled h

theorem readLe_eq (h : off + n ≤ image.length) : image.readLe off n = some (word image off n) := by
  have hlt := image.length_lt
  rw [Slice.readLe, checkedAdd, if_pos (by omega)]
  exact congrArg (Option.bind · fun b => some (fromLeBytes b.bytes)) (Slice.get_eq (Nat.le_add_right _ _) h)

/-- The bytes of a header in the table lie in the image. -/
theorem Tabled.header_fits (ht : e.Tabled) (hi : index < e.phnum) :
    e.phoff + index * e.phentsize + 56 ≤ e.image.length := by
  have hmul : (index + 1) * e.phentsize ≤ e.phnum * e.phentsize := Nat.mul_le_mul_right _ hi
  have hsize := ht.phentsize
  have hfits := ht.fits
  rw [Nat.add_mul, Nat.one_mul] at hmul
  rw [Nat.mul_comm e.phentsize] at hfits
  omega

theorem readU32_eq (h : off + 4 ≤ image.length) : readU32 image off = some (word image off 4).toUInt32 := by
  rw [readU32, readLe_eq h, Option.map_some]

theorem readU64_eq (h : off + 8 ≤ image.length) : readU64 image off = some (word image off 8) := readLe_eq h

/-- So every field of it is there to be read. -/
theorem Tabled.item_eq (ht : e.Tabled) (hi : index < e.phnum) : e.item index =
    if (e.header index).type = ptLoad then some (load e.image (e.header index)) else none := by
  have hfits := ht.header_fits hi
  unfold item
  dsimp only
  rw [readU32_eq (by omega), readU32_eq (by omega), readU64_eq (by omega), readU64_eq (by omega),
    readU64_eq (by omega), readU64_eq (by omega)]
  dsimp only
  rw [ite_not]
  rfl

/-- And the sums that lead to them do not overflow. -/
theorem Tabled.turn_eq (ht : e.Tabled) (hi : index < e.phnum) :
    (e.iterFrom index).turn = .ok (e.item index) := by
  have hfits := ht.header_fits hi
  have hlen := e.image.length_lt
  have hsize := ht.phentsize
  have hindex : index ≤ index * e.phentsize := Nat.le_mul_of_pos_right _ (by omega)
  rw [ht.item_eq hi]
  unfold Segments.turn iterFrom
  dsimp only
  rw [mul_eq (by omega), checked_bind, add_eq (by omega), checked_bind, add_eq (by omega),
    checked_bind, add_eq (by omega), checked_bind, readU32_eq (by omega), readU32_eq (by omega)]
  dsimp only
  by_cases htype : (e.header index).type = ptLoad
  · refine (if_neg (not_not.mpr htype)).trans ?_
    rw [if_pos htype, add_eq (by omega), checked_bind, add_eq (by omega),
      checked_bind, add_eq (by omega), checked_bind, add_eq (by omega), checked_bind,
      readU64_eq (by omega), readU64_eq (by omega), readU64_eq (by omega), readU64_eq (by omega)]
    rfl
  · rw [if_neg htype]
    exact if_pos htype

/-! ### The walk -/

/-- What is still to come after `index` headers. -/
def after (e : Elf) (index : ℕ) : List (Except ElfError Segment) :=
  (List.range' index (e.phnum - index)).filterMap e.item

theorem after_cons (hi : index < e.phnum) :
    e.after index = (e.item index).toList ++ e.after (index + 1) := by
  obtain ⟨n, hn⟩ : ∃ n, e.phnum - index = n + 1 := ⟨e.phnum - index - 1, by omega⟩
  have hn' : e.phnum - (index + 1) = n := by omega
  rw [after, after, hn, hn', List.range'_succ, List.filterMap_cons]
  cases e.item index with
  | none => rfl
  | some item => rfl

theorem next_iterFrom (e : Elf) (index : ℕ) : (e.iterFrom index).next =
    if index < e.phnum then do
      match ← (e.iterFrom index).turn with
      | some item => .ok (some (item, e.iterFrom (index + 1)))
      | none => (e.iterFrom (index + 1)).next
    else .ok none := by
  rw [Segments.next]
  rfl

/-- A call of `next` gives the first of it, or there is none. -/
theorem Tabled.next_eq (ht : e.Tabled) (index : ℕ) :
    (e.after index = [] ∧ (e.iterFrom index).next = .ok none) ∨
      ∃ item index', e.after index = item :: e.after index' ∧ index < index' ∧
        (e.iterFrom index).next = .ok (some (item, e.iterFrom index')) := by
  induction hleft : e.phnum - index generalizing index with
  | zero =>
    refine .inl ⟨by rw [after, hleft]; rfl, ?_⟩
    rw [next_iterFrom, if_neg (by omega)]
  | succ left ih =>
    have hi : index < e.phnum := by omega
    rw [after_cons hi, next_iterFrom, if_pos hi, ht.turn_eq hi, checked_bind]
    cases e.item index with
    | some item => exact .inr ⟨item, index + 1, rfl, Nat.lt_succ_self _, rfl⟩
    | none =>
      obtain ⟨hnil, hnext⟩ | ⟨item, index', hcons, hlt, hnext⟩ := ih (index + 1) (by omega)
      · exact .inl ⟨hnil, hnext⟩
      · exact .inr ⟨item, index', hcons, by omega, hnext⟩

/-- Calling it until it gives none gives all that is to come. -/
theorem Tabled.collect_eq (ht : e.Tabled) {turns : ℕ} (index : ℕ) (hturns : e.phnum - index < turns) :
    (e.iterFrom index).collect turns = .ok (e.after index) := by
  induction turns generalizing index with
  | zero => omega
  | succ turns ih =>
    obtain ⟨hnil, hnext⟩ | ⟨item, index', hcons, hlt, hnext⟩ := ht.next_eq index
    · simp only [Segments.collect, hnext, checked_bind, hnil]
    · have hrest : e.after index ≠ [] := by
        rw [hcons]
        exact List.cons_ne_nil _ _
      have hleft : index < e.phnum := by
        refine Nat.lt_of_not_le fun hle => hrest ?_
        rw [after, Nat.sub_eq_zero_of_le hle]
        rfl
      simp only [Segments.collect, hnext, checked_bind, ih index' (by omega), hcons]

theorem segments_eq_after (e : Elf) : e.segments = e.after 0 := by
  rw [segments, after, Nat.sub_zero, List.range_eq_range']

/-- The segments are the table's `PT_LOAD` headers, resolved. -/
theorem Tabled.segments_eq (ht : e.Tabled) : e.segments =
    (((List.range e.phnum).map e.header).filter (·.type = ptLoad)).map (load e.image) := by
  have hitem : ∀ i ∈ List.range e.phnum, e.item i =
      if (e.header i).type = ptLoad then some (load e.image (e.header i)) else none :=
    fun i hi => ht.item_eq (List.mem_range.mp hi)
  rw [segments, List.filterMap_congr hitem]
  clear hitem
  induction List.range e.phnum with
  | nil => rfl
  | cons i l ih =>
    rw [List.filterMap_cons, List.map_cons, List.filter_cons]
    by_cases htype : (e.header i).type = ptLoad
    · rw [if_pos htype, if_pos (decide_eq_true htype), List.map_cons, ih]
    · rw [if_neg htype, if_neg (by rw [decide_eq_false htype]; exact Bool.false_ne_true), ih]

theorem load_ok {h : Header} {seg : Segment} (hload : load image h = .ok seg) :
    h.offset.toNat + h.filesz.toNat ≤ image.length ∧
      seg.file = image.sub h.offset.toNat (h.offset.toNat + h.filesz.toNat) ∧
      seg.vaddr = h.vaddr ∧ seg.memsz = h.memsz ∧ seg.rights = Rights.fromFlags h.flags := by
  unfold load resolve at hload
  split at hload
  · split at hload
    · split at hload
      · cases hload
      · next stop hend =>
        obtain rfl := checkedAdd_eq hend
        split at hload
        · next hfits =>
          obtain rfl := Except.ok.inj hload
          exact ⟨hfits.2, rfl, rfl, rfl, rfl⟩
        · cases hload
    · cases hload
  · cases hload

/-- A header is not found to be truncated when it is not. -/
theorem load_ne_truncated (image : Slice) (h : Header) : load image h ≠ .error .truncatedProgramHeaders := by
  unfold load resolve
  split_ifs
  · split
    · simp
    · split_ifs <;> simp
  · simp
  · simp

/-- Over an image that parses the walk of the segments ends, without a sum that overflows, after
no more items than there are headers: one for each `PT_LOAD` header, in the order of the table,
and none that says the table is truncated. A segment's file is the part of the image its header
names. -/
theorem segments_total (h : parse image = .ok e) :
    (∀ turns, e.phnum < turns → (e.iterFrom 0).collect turns = .ok e.segments) ∧
    e.segments = (((List.range e.phnum).map e.header).filter (·.type = ptLoad)).map (load image) ∧
    e.segments.length ≤ e.phnum ∧ .error .truncatedProgramHeaders ∉ e.segments ∧
    ∀ seg, .ok seg ∈ e.segments → ∃ i < e.phnum, (e.header i).type = ptLoad ∧
      (e.header i).offset.toNat + (e.header i).filesz.toNat ≤ image.length ∧
      seg.file = image.sub (e.header i).offset.toNat
        ((e.header i).offset.toNat + (e.header i).filesz.toNat) ∧
      seg.vaddr = (e.header i).vaddr ∧ seg.memsz = (e.header i).memsz ∧
      seg.rights = Rights.fromFlags (e.header i).flags ∧
      seg.file.length ≤ seg.memsz.toNat ∧ seg.vaddr.toNat % 4096 = 0 := by
  obtain ⟨rfl, ht⟩ := parse_tabled h
  refine ⟨fun turns hturns => ?_, ht.segments_eq, ?_, ?_, ?_⟩
  · rw [segments_eq_after]
    exact ht.collect_eq 0 (by omega)
  · calc e.segments.length ≤ (List.range e.phnum).length := List.length_filterMap_le _ _
      _ = e.phnum := List.length_range
  · rw [ht.segments_eq]
    intro hmem
    obtain ⟨header, -, hload⟩ := List.mem_map.mp hmem
    exact load_ne_truncated _ _ hload
  · intro seg hmem
    rw [ht.segments_eq] at hmem
    obtain ⟨header, hheader, hload⟩ := List.mem_map.mp hmem
    obtain ⟨hheader, htype⟩ := List.mem_filter.mp hheader
    obtain ⟨i, hi, rfl⟩ := List.mem_map.mp hheader
    obtain ⟨hfits, hfile, hvaddr, hmemsz, hrights⟩ := load_ok hload
    exact ⟨i, List.mem_range.mp hi, of_decide_eq_true htype, hfits, hfile, hvaddr, hmemsz, hrights,
      seg.file_le, seg.aligned⟩

end

end Elf

/-- A note, and one segment of two pages at the top of the address space, of which the file
holds the first byte. -/
def noteAndLoad : Slice where
  bytes := [0x7F, 0x45, 0x4C, 0x46, 2, 1, 1, 0, 0, 0, 0, 0, 0, 0, 0, 0, 2, 0, 62, 0, 1, 0, 0, 0] ++
    [0, 0, 0, 0x80, 0xFF, 0xFF, 0xFF, 0xFF, 64, 0, 0, 0, 0, 0, 0, 0, 0, 0, 0, 0, 0, 0, 0, 0] ++
    [0, 0, 0, 0, 64, 0, 56, 0, 2, 0, 64, 0, 0, 0, 0, 0] ++
    (4 :: List.replicate 55 0) ++
    [1, 0, 0, 0, 5, 0, 0, 0, 0, 0, 0, 0, 0, 0, 0, 0, 0, 0, 0, 0x80, 0xFF, 0xFF, 0xFF, 0xFF,
      0, 0, 0, 0, 0, 0, 0, 0, 1, 0, 0, 0, 0, 0, 0, 0, 1, 0x10, 0, 0, 0, 0, 0, 0,
      0, 0x10, 0, 0, 0, 0, 0, 0]
  length_le := by decide +kernel

theorem noteAndLoad_total : ∃ e, Elf.parse noteAndLoad = .ok e ∧
    (e.iterFrom 0).collect 3 = .ok e.segments := by
  have hnumber : (Elf.parse noteAndLoad).toOption.map (·.phnum) = some 2 := by decide +kernel
  cases hparse : Elf.parse noteAndLoad with
  | error err => rw [hparse] at hnumber; cases hnumber
  | ok e =>
    rw [hparse] at hnumber
    have hturns : e.phnum < 3 := by
      rw [show e.phnum = 2 from Option.some.inj hnumber]
      decide
    exact ⟨e, rfl, (Elf.segments_total hparse).1 3 hturns⟩

end StarOs.Elf64
