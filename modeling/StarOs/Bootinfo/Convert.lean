import StarOs.Bootinfo.Memmap

/-! What `convert` makes of a map. The walk over the bytes visits the whole descriptors and no
others; what it writes does not depend on the room it has, covers what they cover and is as
short as joining neighbours makes it. -/

namespace StarOs.Bootinfo

open Library

/-! ### The walk over the bytes -/

/-- The fields of one descriptor. -/
def readDescriptor (raw : Slice) : Checked Descriptor := do
  let ty ← raw.range 0 4
  let phys ← raw.range 8 16
  let pages ← raw.range 24 32
  .ok ⟨(fromLeBytes ty.bytes).toUInt32, fromLeBytes phys.bytes, fromLeBytes pages.bytes⟩

/-- The loop of `convert` over the bytes from `offset` on, for up to `turns` turns. -/
def convertLoop (map : Slice) (descriptorSize capacity : ℕ) :
    (turns : ℕ) → (offset : ℕ) → List MemoryRegion →
      Checked (Except ConvertError (List MemoryRegion))
  | 0, _, _ => .error .unfinished
  | turns + 1, offset, out => do
    let stop ← add offset descriptorSize
    if stop ≤ map.length then do
      let raw ← map.range offset stop
      let offset := stop
      let d ← readDescriptor raw
      if d.len = 0 then convertLoop map descriptorSize capacity turns offset out
      else
        let append := if out.length = capacity then do
            let remaining ← div (map.length - offset) descriptorSize
            .ok (.error (.tooManyRegions (out.length + 1 + remaining)))
          else convertLoop map descriptorSize capacity turns offset (out ++ [d.region])
        match out.getLast? with
        | some prev =>
          if prev.kind = classify d.ty ∧ prev.endAddr = d.phys.toNat then
            convertLoop map descriptorSize capacity turns offset (out.dropLast ++ [prev.extend d.len])
          else append
        | none => append
    else .ok (.ok out)

section

variable {map : Slice} {descriptorSize capacity offset turns i : ℕ} {out : List MemoryRegion}

theorem sub_sub {a b c d : ℕ} (hd : a + d ≤ b) : (map.sub a b).sub c d = map.sub (a + c) (a + d) := by
  apply Slice.ext
  simp only [Slice.sub, List.take_drop, List.drop_drop, List.take_take, Nat.min_eq_left hd]

theorem readDescriptor_at (hsize : memoryDescriptorSize ≤ descriptorSize)
    (hfits : offset + descriptorSize ≤ map.length) :
    readDescriptor (map.sub offset (offset + descriptorSize)) = .ok (descriptorAt map offset) := by
  have hlong : 40 ≤ descriptorSize := hsize
  have hlen : (map.sub offset (offset + descriptorSize)).length = descriptorSize := by
    rw [Slice.length_sub]
    omega
  rw [readDescriptor, Slice.range_eq (by decide) (by omega), checked_bind,
    Slice.range_eq (by decide) (by omega), checked_bind, Slice.range_eq (by decide) (by omega),
    checked_bind, sub_sub (by omega), sub_sub (by omega), sub_sub (by omega)]
  rfl

theorem length_descriptors : (descriptors map descriptorSize).length = map.length / descriptorSize := by
  rw [descriptors, List.length_map, List.length_range]

theorem drop_descriptors (hi : i < map.length / descriptorSize) :
    (descriptors map descriptorSize).drop i =
      descriptorAt map (i * descriptorSize) :: (descriptors map descriptorSize).drop (i + 1) := by
  rw [List.drop_eq_getElem_cons (by rw [length_descriptors]; exact hi)]
  simp only [descriptors, List.getElem_map, List.getElem_range]

/-- From the `i`-th descriptor on, the loop over the bytes is the one over the descriptors: a
partial one at the end is not visited, and no access is out of range. -/
theorem convertLoop_eq (hsize : memoryDescriptorSize ≤ descriptorSize)
    (hword : descriptorSize < 2 ^ 64) (hi : i ≤ map.length / descriptorSize)
    (hturns : map.length / descriptorSize - i < turns) :
    convertLoop map descriptorSize capacity turns (i * descriptorSize) out =
      .ok (convertFrom capacity ((descriptors map descriptorSize).drop i) out) := by
  have hpos : 0 < descriptorSize := Nat.lt_of_lt_of_le (by decide) hsize
  have hlen := map.length_lt
  induction turns generalizing i out with
  | zero => omega
  | succ turns ih =>
    have hwhole : i * descriptorSize ≤ map.length := (Nat.le_div_iff_mul_le hpos).mp hi
    have hadd : add (i * descriptorSize) descriptorSize = .ok (i * descriptorSize + descriptorSize) := by
      obtain rfl | hpos' := Nat.eq_zero_or_pos i
      · exact add_eq (by omega)
      · have hfirst : descriptorSize ≤ i * descriptorSize := Nat.le_mul_of_pos_left _ hpos'
        exact add_eq (by omega)
    have hstop : i * descriptorSize + descriptorSize = (i + 1) * descriptorSize := by
      rw [Nat.add_mul, Nat.one_mul]
    rw [convertLoop, hadd, checked_bind]
    by_cases hmore : i < map.length / descriptorSize
    · have hfits : i * descriptorSize + descriptorSize ≤ map.length := by
        rw [hstop]
        exact (Nat.le_div_iff_mul_le hpos).mp hmore
      have hgo : ∀ out, convertLoop map descriptorSize capacity turns
          (i * descriptorSize + descriptorSize) out =
            .ok (convertFrom capacity ((descriptors map descriptorSize).drop (i + 1)) out) := by
        intro out
        rw [hstop]
        exact ih hmore (by omega)
      have hremaining : div (map.length - (i * descriptorSize + descriptorSize)) descriptorSize =
          .ok ((descriptors map descriptorSize).drop (i + 1)).length := by
        have hle : descriptorSize * (i + 1) ≤ map.length := by
          rw [Nat.mul_comm, ← hstop]
          exact hfits
        rw [div, if_neg (by omega), List.length_drop, length_descriptors, hstop, Nat.mul_comm (i + 1),
          Nat.sub_mul_div_of_le _ _ _ hle]
      simp only [if_pos hfits, Slice.range_eq (Nat.le_add_right _ _) hfits, checked_bind,
        readDescriptor_at hsize hfits, drop_descriptors hmore, convertFrom, hremaining, hgo]
      split_ifs
      · rfl
      · cases out.getLast? with
        | none => rfl
        | some prev =>
          dsimp only
          split_ifs <;> rfl
      · cases out.getLast? with
        | none => rfl
        | some prev =>
          dsimp only
          split_ifs <;> rfl
    · have hpast : ¬i * descriptorSize + descriptorSize ≤ map.length := by
        rw [hstop]
        exact fun hle => hmore ((Nat.le_div_iff_mul_le hpos).mpr hle)
      rw [if_neg hpast, List.drop_eq_nil_of_le (by rw [length_descriptors]; omega), convertFrom]

/-- `convert` over the bytes is `convert` over the descriptors. -/
theorem convertLoop_convert (hsize : memoryDescriptorSize ≤ descriptorSize)
    (hword : descriptorSize < 2 ^ 64) (hturns : map.length / descriptorSize < turns) :
    convertLoop map descriptorSize capacity turns 0 [] = .ok (convert map descriptorSize capacity) := by
  have hloop : convertLoop map descriptorSize capacity turns (0 * descriptorSize) [] =
      .ok (convertFrom capacity ((descriptors map descriptorSize).drop 0) []) :=
    convertLoop_eq hsize hword (Nat.zero_le _) hturns
  rw [Nat.zero_mul, List.drop_zero] at hloop
  rw [hloop, convert, if_neg (Nat.not_lt.mpr hsize)]

end

/-! ### Joining neighbours -/

/-- One turn with room to spare. -/
def absorb (out : List MemoryRegion) (d : Descriptor) : List MemoryRegion :=
  if d.len = 0 then out
  else
    match out.getLast? with
    | some prev =>
      if prev.kind = classify d.ty ∧ prev.endAddr = d.phys.toNat then
        out.dropLast ++ [prev.extend d.len]
      else out ++ [d.region]
    | none => out ++ [d.region]

/-- What `convert` writes where there is room for it. -/
def coalesced (l : List Descriptor) : List MemoryRegion := l.foldl absorb []

/-- The bytes of a region, in order, with what they are said to be. -/
def MemoryRegion.bytes (r : MemoryRegion) : List (ℕ × MemoryKind) :=
  (List.range' r.start (r.endAddr - r.start)).map fun a => (a, r.kind)

/-- The bytes of the descriptors with a page count that is not zero. -/
def coveredBytes (l : List Descriptor) : List (ℕ × MemoryKind) :=
  (l.filter fun d => d.pages ≠ 0).flatMap fun d => d.region.bytes

/-- One region goes on where the other ends, and is of its kind. -/
def Abuts (r r' : MemoryRegion) : Prop := r.kind = r'.kind ∧ r.endAddr = r'.start

section

variable {out : List MemoryRegion} {d : Descriptor} {prev : MemoryRegion}

/-- The three things a turn does. -/
theorem absorb_cases (out : List MemoryRegion) (d : Descriptor) :
    (d.len = 0 ∧ absorb out d = out) ∨
    (d.len ≠ 0 ∧ (∀ prev ∈ out.getLast?, ¬Abuts prev d.region) ∧ absorb out d = out ++ [d.region]) ∨
    ∃ front prev, out = front ++ [prev] ∧ d.len ≠ 0 ∧ Abuts prev d.region ∧
      absorb out d = front ++ [prev.extend d.len] := by
  unfold absorb
  by_cases hlen : d.len = 0
  · exact .inl ⟨hlen, if_pos hlen⟩
  · rw [if_neg hlen]
    obtain rfl | ⟨front, prev, rfl⟩ := List.eq_nil_or_concat' out
    · exact .inr (.inl ⟨hlen, by simp, rfl⟩)
    · rw [List.getLast?_concat, List.dropLast_concat]
      dsimp only
      by_cases hjoin : prev.kind = classify d.ty ∧ prev.endAddr = d.phys.toNat
      · rw [if_pos hjoin]
        exact .inr (.inr ⟨front, prev, rfl, hlen, hjoin, rfl⟩)
      · rw [if_neg hjoin]
        refine .inr (.inl ⟨hlen, fun prev' hprev => ?_, rfl⟩)
        obtain rfl := Option.some.inj hprev
        exact hjoin

theorem le_endAddr (r : MemoryRegion) : r.start ≤ r.endAddr := by
  have := r.start_le
  unfold MemoryRegion.endAddr saturatingAdd
  omega

/-- A region that grew by its neighbour covers both. -/
theorem bytes_extend (h : Abuts prev d.region) :
    (prev.extend d.len).bytes = prev.bytes ++ d.region.bytes := by
  obtain ⟨hkind, hend⟩ := h
  have hgrown : (prev.extend d.len).endAddr = d.region.endAddr := endAddr_extend hend d.len
  have hle := le_endAddr prev
  have hle' := le_endAddr d.region
  unfold MemoryRegion.bytes
  rw [hgrown, ← hkind]
  have hstart : (prev.extend d.len).start = prev.start := rfl
  have hsame : (prev.extend d.len).kind = prev.kind := rfl
  rw [hstart, hsame, show d.region.endAddr - prev.start =
      (prev.endAddr - prev.start) + (d.region.endAddr - d.region.start) by omega,
    ← List.range'_append_1, List.map_append, Nat.add_sub_cancel' hle, hend]

theorem bytes_region_of_empty (h : d.len = 0) : d.region.bytes = [] := by
  have hend : d.region.endAddr = d.region.start := by
    have := d.region.start_le
    change saturatingAdd d.region.start d.len = d.region.start
    rw [h, saturatingAdd, Nat.add_zero]
    exact Nat.min_eq_left this
  rw [MemoryRegion.bytes, hend, Nat.sub_self]
  rfl

/-- A turn adds the bytes of its descriptor. -/
theorem absorb_bytes (out : List MemoryRegion) (d : Descriptor) :
    (absorb out d).flatMap MemoryRegion.bytes =
      out.flatMap MemoryRegion.bytes ++ d.region.bytes := by
  obtain ⟨hlen, heq⟩ | ⟨-, -, heq⟩ | ⟨front, prev, rfl, -, habuts, heq⟩ := absorb_cases out d
  · rw [heq, bytes_region_of_empty hlen, List.append_nil]
  · rw [heq, List.flatMap_append, List.flatMap_singleton]
  · rw [heq, List.flatMap_append, List.flatMap_append, List.flatMap_singleton, List.flatMap_singleton,
      bytes_extend habuts, List.append_assoc]

/-- And leaves no neighbours to join. -/
theorem absorb_apart (h : out.IsChain fun r r' => ¬Abuts r r') :
    (absorb out d).IsChain fun r r' => ¬Abuts r r' := by
  obtain ⟨-, heq⟩ | ⟨-, hlast, heq⟩ | ⟨front, prev, rfl, -, -, heq⟩ := absorb_cases out d
  · rwa [heq]
  · rw [heq, List.isChain_append]
    refine ⟨h, List.isChain_singleton _, fun prev hprev next hnext => ?_⟩
    obtain rfl := Option.some.inj hnext
    exact hlast prev hprev
  · rw [heq]
    rw [List.isChain_append] at h ⊢
    refine ⟨h.1, List.isChain_singleton _, fun before hbefore next hnext => ?_⟩
    obtain rfl := Option.some.inj hnext
    exact h.2.2 before hbefore prev rfl

theorem coveredBytes_eq (l : List Descriptor) :
    coveredBytes l = l.flatMap fun d => d.region.bytes := by
  rw [coveredBytes]
  induction l with
  | nil => rfl
  | cons d l ih =>
    rw [List.filter_cons, List.flatMap_cons]
    by_cases hpages : d.pages = 0
    · have hlen : d.len = 0 := by
        rw [Descriptor.len, hpages, saturatingMul, UInt64.toNat_zero, Nat.zero_mul]
        exact Nat.zero_min _
      rw [if_neg (by simp [hpages]), ih, bytes_region_of_empty hlen, List.nil_append]
    · rw [if_pos (by simp [hpages]), List.flatMap_cons, ih]

theorem coalesced_bytes (l : List Descriptor) :
    (coalesced l).flatMap MemoryRegion.bytes = coveredBytes l := by
  have hfold : ∀ out, (l.foldl absorb out).flatMap MemoryRegion.bytes =
      out.flatMap MemoryRegion.bytes ++ l.flatMap fun d => d.region.bytes := by
    induction l with
    | nil => simp
    | cons d l ih =>
      intro out
      rw [List.foldl_cons, ih, absorb_bytes, List.flatMap_cons, List.append_assoc]
  rw [coalesced, hfold, coveredBytes_eq]
  rfl

theorem coalesced_apart (l : List Descriptor) : (coalesced l).IsChain fun r r' => ¬Abuts r r' := by
  have hfold : ∀ out : List MemoryRegion, (out.IsChain fun r r' => ¬Abuts r r') →
      (l.foldl absorb out).IsChain fun r r' => ¬Abuts r r' := by
    induction l with
    | nil => exact fun _ h => h
    | cons d l ih => exact fun out h => ih _ (absorb_apart h)
  exact hfold [] List.isChain_nil

theorem length_absorb (out : List MemoryRegion) (d : Descriptor) :
    out.length ≤ (absorb out d).length ∧ (absorb out d).length ≤ out.length + 1 := by
  obtain ⟨-, heq⟩ | ⟨-, -, heq⟩ | ⟨front, prev, rfl, -, -, heq⟩ := absorb_cases out d
  · rw [heq]
    omega
  · rw [heq, List.length_append, List.length_singleton]
    omega
  · rw [heq, List.length_append, List.length_append, List.length_singleton, List.length_singleton]
    omega

theorem length_foldl_absorb (l : List Descriptor) (out : List MemoryRegion) :
    out.length ≤ (l.foldl absorb out).length ∧ (l.foldl absorb out).length ≤ out.length + l.length := by
  induction l generalizing out with
  | nil => exact ⟨Nat.le_refl _, Nat.le_refl _⟩
  | cons d l ih =>
    have hstep := length_absorb out d
    have hrest := ih (absorb out d)
    rw [List.foldl_cons, List.length_cons]
    omega

/-- A turn is `absorb`, where there is room for what it appends. -/
theorem convertFrom_cons (capacity : ℕ) (l : List Descriptor) (hroom : out.length ≤ capacity) :
    (convertFrom capacity (d :: l) out = convertFrom capacity l (absorb out d) ∧
      (absorb out d).length ≤ capacity) ∨
    convertFrom capacity (d :: l) out = .error (.tooManyRegions (out.length + 1 + l.length)) ∧
      capacity < (absorb out d).length := by
  have happend : absorb out d = out ++ [d.region] →
      (convertFrom capacity (d :: l) out = if out.length = capacity then
        .error (.tooManyRegions (out.length + 1 + l.length))
        else convertFrom capacity l (out ++ [d.region])) →
      (convertFrom capacity (d :: l) out = convertFrom capacity l (absorb out d) ∧
        (absorb out d).length ≤ capacity) ∨
      convertFrom capacity (d :: l) out = .error (.tooManyRegions (out.length + 1 + l.length)) ∧
        capacity < (absorb out d).length := by
    intro habsorb hturn
    have hlen : (absorb out d).length = out.length + 1 := by
      rw [habsorb, List.length_append, List.length_singleton]
    by_cases hfull : out.length = capacity
    · rw [if_pos hfull] at hturn
      exact .inr ⟨hturn, by omega⟩
    · rw [if_neg hfull, ← habsorb] at hturn
      exact .inl ⟨hturn, by omega⟩
  obtain ⟨hlen, heq⟩ | ⟨hlen, hlast, heq⟩ | ⟨front, prev, rfl, hlen, habuts, heq⟩ := absorb_cases out d
  · refine .inl ⟨?_, by rwa [heq]⟩
    rw [heq, convertFrom, if_pos hlen]
  · refine happend heq ?_
    rw [convertFrom, if_neg hlen]
    cases hget : out.getLast? with
    | none => rfl
    | some prev => exact if_neg (hlast prev hget)
  · refine .inl ⟨?_, ?_⟩
    · rw [heq, convertFrom, if_neg hlen, List.getLast?_concat, List.dropLast_concat]
      exact if_pos habuts
    · rw [heq, List.length_append, List.length_singleton]
      rwa [List.length_append, List.length_singleton] at hroom

/-- The loop writes the same regions whatever its room, up to the one there is no room for. -/
theorem convertFrom_eq {capacity : ℕ} (l : List Descriptor) (hroom : out.length ≤ capacity) :
    convertFrom capacity l out = .ok (l.foldl absorb out) ∧ (l.foldl absorb out).length ≤ capacity ∨
      ∃ needed, convertFrom capacity l out = .error (.tooManyRegions needed) ∧
        capacity < (l.foldl absorb out).length ∧ (l.foldl absorb out).length ≤ needed := by
  induction l generalizing out with
  | nil => exact .inl ⟨rfl, hroom⟩
  | cons d l ih =>
    rw [List.foldl_cons]
    obtain ⟨hturn, hroom'⟩ | ⟨hturn, hfull⟩ := convertFrom_cons (d := d) capacity l hroom
    · rw [hturn]
      exact ih hroom'
    · have hstep := length_absorb out d
      have hgrow := length_foldl_absorb l (absorb out d)
      exact .inr ⟨_, hturn, by omega, by omega⟩

end

/-- Whatever the firmware's map and its stride, there is one list of regions that `convert` writes
wherever it has room for it: it covers, kind for kind and in order, the bytes of the descriptors
that are not empty, no two neighbours in it could be joined, and it is no longer than the map has
descriptors. The loop over the bytes that writes it reads nothing out of range. -/
theorem convert_preserves (map : Slice) (descriptorSize : ℕ) :
    (descriptorSize < memoryDescriptorSize →
      ∀ capacity, convert map descriptorSize capacity = .error .badDescriptorSize) ∧
    (memoryDescriptorSize ≤ descriptorSize → ∃ regions : List MemoryRegion,
      (∀ capacity, (regions.length ≤ capacity → convert map descriptorSize capacity = .ok regions) ∧
        (capacity < regions.length → ∃ needed, regions.length ≤ needed ∧
          convert map descriptorSize capacity = .error (.tooManyRegions needed))) ∧
      regions.flatMap MemoryRegion.bytes = coveredBytes (descriptors map descriptorSize) ∧
      (regions.IsChain fun r r' => ¬Abuts r r') ∧
      regions.length ≤ map.length / descriptorSize ∧
      convert map descriptorSize (map.length / descriptorSize) = .ok regions ∧
      (descriptorSize < 2 ^ 64 → ∀ capacity turns, map.length / descriptorSize < turns →
        convertLoop map descriptorSize capacity turns 0 [] =
          .ok (convert map descriptorSize capacity))) := by
  refine ⟨fun hsize capacity => if_pos hsize, fun hsize => ?_⟩
  have hconvert : ∀ capacity, convert map descriptorSize capacity =
      convertFrom capacity (descriptors map descriptorSize) [] :=
    fun capacity => if_neg (Nat.not_lt.mpr hsize)
  have hroom := fun capacity => @convertFrom_eq [] capacity (descriptors map descriptorSize)
    (Nat.zero_le capacity)
  have hfits : ∀ capacity, (coalesced (descriptors map descriptorSize)).length ≤ capacity →
      convert map descriptorSize capacity = .ok (coalesced (descriptors map descriptorSize)) := by
    intro capacity hle
    rw [hconvert]
    obtain ⟨hok, -⟩ | ⟨-, -, hlt, -⟩ := hroom capacity
    · exact hok
    · exact absurd hle (Nat.not_le.mpr hlt)
  have hshort : (coalesced (descriptors map descriptorSize)).length ≤ map.length / descriptorSize := by
    have := (length_foldl_absorb (descriptors map descriptorSize) []).2
    rw [length_descriptors, List.length_nil, Nat.zero_add] at this
    exact this
  refine ⟨coalesced (descriptors map descriptorSize), fun capacity => ⟨hfits capacity, ?_⟩,
    coalesced_bytes _, coalesced_apart _, hshort, hfits _ hshort,
    fun hword capacity turns => convertLoop_convert hsize hword⟩
  intro hlt
  obtain ⟨-, hle⟩ | ⟨needed, herror, -, hneeded⟩ := hroom capacity
  · exact absurd hle (Nat.not_le.mpr hlt)
  · exact ⟨needed, hneeded, (hconvert capacity).trans herror⟩

end StarOs.Bootinfo
