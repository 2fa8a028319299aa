import StarOs.Paging.Refinement

/-! What the mapper asks its source for. Over a source that notes its answers every call does
what it does over the source itself, and it gives up for want of a table exactly when a request
of its own was refused. -/

namespace StarOs.Paging

/-- The source with a note of what `alloc_table` answered, the latest first. -/
def FrameSource.noted {σ : Type} (F : FrameSource σ) : FrameSource (σ × List (Option UInt64)) where
  allocTable s := ((F.allocTable s.1).1, (F.allocTable s.1).2, (F.allocTable s.1).1 :: s.2)
  read s := F.read s.1
  write s t i e := (F.write s.1 t i e, s.2)

/-- What `alloc_table` answered during a run over such a source. -/
def tableAnswers {σ α : Type} (run : σ × List (Option UInt64) → α × σ × List (Option UInt64))
    (s : σ) : List (Option UInt64) := (run (s, [])).2.2

/-- The run over the noting source ends as the run over the source does, and with error `e`
exactly when one of the new answers is none. -/
def Noted {ε α σ : Type} (e : ε) (notes : List (Option UInt64)) (run : Except ε α × σ)
    (noted : Except ε α × σ × List (Option UInt64)) : Prop :=
  ∃ new, noted = (run.1, run.2, new ++ notes) ∧ (none ∈ new ↔ run.1 = .error e)

section

variable {ε α β σ : Type} {e : ε} {notes : List (Option UInt64)} {run : Except ε β × σ}
  {noted : Except ε β × σ × List (Option UInt64)}

theorem Noted.still {res : Except ε β} (s : σ) (h : res ≠ .error e) :
    Noted e notes (res, s) (res, s, notes) :=
  ⟨[], rfl, by simp [h]⟩

/-- What was noted before it belongs to a run that goes on. -/
theorem Noted.after {new : List (Option UInt64)} {a : α}
    (h : Noted e (new ++ notes) run noted)
    (hnew : none ∈ new ↔ (Except.ok a : Except ε α) = .error e) : Noted e notes run noted := by
  obtain ⟨later, heq, hlater⟩ := h
  have hanswered : none ∉ new := mt hnew.mp nofun
  exact ⟨later ++ new, heq.trans (by rw [List.append_assoc]), by simp [hanswered, hlater]⟩

/-- A run that stops where its first part did. -/
theorem Noted.stop {new : List (Option UInt64)} {err : ε} (s : σ)
    (hnew : none ∈ new ↔ (Except.error err : Except ε α) = .error e) :
    Noted e notes ((.error err : Except ε β), s) (.error err, s, new ++ notes) :=
  ⟨new, rfl, hnew.trans (by simp)⟩

/-- A run whose requests were all answered does not end with that error. -/
theorem Noted.answered {run : σ → Except ε α × σ}
    {noted : σ × List (Option UInt64) → Except ε α × σ × List (Option UInt64)} {s : σ}
    (h : Noted e [] (run s) (noted (s, []))) :
    none ∈ tableAnswers noted s ↔ (run s).1 = .error e := by
  obtain ⟨new, heq, hnone⟩ := h
  rw [tableAnswers, heq]
  simpa using hnone

end

section

variable {σ : Type} (F : FrameSource σ) (m : Mapper) (notes : List (Option UInt64)) (s : σ)

@[simp] theorem noted_read : F.noted.read (s, notes) = F.read s := rfl

@[simp] theorem noted_write (t : UInt64) (i : ℕ) (e : UInt64) :
    F.noted.write (s, notes) t i e = (F.write s t i e, notes) := rfl

theorem noted_alloc : F.noted.allocTable (s, notes) =
    ((F.allocTable s).1, (F.allocTable s).2, (F.allocTable s).1 :: notes) := rfl

theorem nextTable_noted (table : UInt64) (idx : ℕ) (r : Rights) :
    Noted MapError.outOfFrames notes (nextTable F table idx r s)
      (nextTable F.noted table idx r (s, notes)) := by
  unfold nextTable
  dsimp only [noted_read]
  cases hp : present (F.read s table idx)
  · rw [noted_alloc]
    rcases F.allocTable s with ⟨_ | page, s'⟩
    · exact ⟨[none], rfl, by simp⟩
    · exact ⟨[some page], rfl, by simp⟩
  · cases hh : huge (F.read s table idx)
    · simp only [Bool.false_eq_true, if_true, if_false, noted_write]
      split
      · exact .still _ nofun
      · exact .still s nofun
    · exact .still s nofun

theorem mapLeafFrom_noted (virt : UInt64) (r : Rights) (level : ℕ) (bits : UInt64) (n : ℕ)
    (table : UInt64) : Noted MapError.outOfFrames notes
      (mapLeafFrom F virt r level bits n table s)
      (mapLeafFrom F.noted virt r level bits n table (s, notes)) := by
  induction n generalizing table s notes with
  | zero => exact .still _ nofun
  | succ n ih =>
    obtain ⟨new, heq, hnew⟩ := nextTable_noted F notes s table (index virt (level + n + 1)) r
    rw [mapLeafFrom, mapLeafFrom, heq]
    rcases hnext : nextTable F table (index virt (level + n + 1)) r s with ⟨err | u, s'⟩ <;>
      rw [hnext] at hnew
    · exact .stop s' hnew
    · exact (ih (new ++ notes) s' u).after hnew

theorem mapLoop_noted (virt phys size : UInt64) (r : Rights) (ty : MemoryType) (n : ℕ)
    (done : UInt64) : Noted MapError.outOfFrames notes
      (m.mapLoop F virt phys size r ty n done s)
      (m.mapLoop F.noted virt phys size r ty n done (s, notes)) := by
  induction n generalizing done s notes with
  | zero => exact .still s nofun
  | succ n ih =>
    rw [Mapper.mapLoop, Mapper.mapLoop]
    split
    · have hleaf := fun level => mapLeafFrom_noted F notes s (virt + done) r level
        (leafEntry (phys + done) r ty level) (3 - level) m.root
      obtain ⟨new, heq, hnew⟩ := hleaf (m.stepLevel (virt + done) (phys + done) (size - done))
      simp only [Mapper.mapLeaf, heq]
      rcases hone : mapLeafFrom F _ r _ _ _ m.root s with ⟨err | _, s'⟩ <;> rw [hone] at hnew
      · exact .stop s' hnew
      · exact (ih (new ++ notes) s' _).after hnew
    · exact .still s nofun

theorem perform_noted (c : Call) : Noted MapError.outOfFrames notes (c.perform F m s)
    (c.perform F.noted m (s, notes)) := by
  rw [perform_eq, perform_eq, Mapper.mapAs, Mapper.mapAs]
  split
  · exact .still s (by simp)
  · exact mapLoop_noted F m notes s _ _ _ _ _ _ _

theorem performAll_noted (cs : List Call) : Noted MapError.outOfFrames notes
    (Call.performAll F m cs s) (Call.performAll F.noted m cs (s, notes)) := by
  induction cs generalizing s notes with
  | nil => exact .still s nofun
  | cons c cs ih =>
    obtain ⟨new, heq, hnew⟩ := perform_noted F m notes s c
    rw [Call.performAll, Call.performAll, heq]
    rcases hcall : c.perform F m s with ⟨err | _, s'⟩ <;> rw [hcall] at hnew
    · exact .stop s' hnew
    · exact (ih (new ++ notes) s').after hnew

theorem translateFrom_noted (virt : UInt64) (level : ℕ) (table : UInt64) (effective : Rights) :
    Mapper.translateFrom F.noted virt (s, notes) level table effective =
      Mapper.translateFrom F virt s level table effective := by
  induction level generalizing table effective with
  | zero => rfl
  | succ level ih =>
    rw [Mapper.translateFrom, Mapper.translateFrom]
    simp only [noted_read, ih]

@[simp] theorem translate_noted (virt : UInt64) :
    m.translate F.noted virt (s, notes) = m.translate F virt s :=
  translateFrom_noted F notes s virt 4 m.root _

theorem new_noted (gib : Bool) : Noted MapError.outOfFrames notes (Mapper.new F gib s)
    (Mapper.new F.noted gib (s, notes)) := by
  rw [Mapper.new, Mapper.new, noted_alloc]
  rcases F.allocTable s with ⟨_ | page, s'⟩
  · exact ⟨[none], rfl, by simp⟩
  · exact ⟨[some page], rfl, by simp⟩

end

end StarOs.Paging
