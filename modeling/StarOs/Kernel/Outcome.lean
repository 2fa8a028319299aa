import StarOs.Kernel.Steps

/-! Every act of the core has an outcome. -/

namespace StarOs.Kernel

open Library

namespace Machine

variable {k : Machine} {t : ℕ} {x : Task}

/-! ### Coming back from a switch -/

/-- The tasks once the one switched away from has been settled. -/
def settledTasks (k : Machine) : List Task :=
  match k.prev with
  | none => k.tasks
  | some i => k.tasks.modify i reap

theorem postSwitch_eq (hprev : ∀ i, k.prev = some i → i < k.tasks.length) :
    ∃ s, k.postSwitch = .ok { k with prev := none, tasks := k.settledTasks, stats := s } := by
  unfold postSwitch settledTasks
  cases hp : k.prev with
  | none => exact ⟨_, rfl⟩
  | some i =>
    have hi := hprev i hp
    have ht := List.getElem?_eq_getElem hi
    dsimp only
    rw [task_eq (by exact ht), ok_bind, onTask_eq _ (by exact hi), ok_bind]
    exact ⟨_, rfl⟩

theorem reap_of_live {y : Task} (h : y.state ≠ .dead) : reap y = y := by simp [reap, h]

theorem reap_of_dead {y : Task} (h : y.state = .dead) :
    reap y = { y with stack := 0, space := none, caps := [], mailbox := none } := by
  simp [reap, h]

theorem reap_ok {y : Task} {l : Option Resume} (h : y.Ok l) : (reap y).Ok l := by
  by_cases hd : y.state = .dead
  · simp [reap_of_dead hd, Task.Ok, hd]
  · rwa [reap_of_live hd]

theorem reap_state (y : Task) : (reap y).state = y.state := by
  by_cases hd : y.state = .dead <;> simp [reap, hd]

theorem reap_phase (l : Option Resume) (y : Task) : (reap y).phase l = y.phase l := by
  by_cases hd : y.state = .dead
  · simp [reap_of_dead hd, Task.phase, hd]
  · rw [reap_of_live hd]

/-- Settling the previous task keeps the machine coherent and shows nowhere else. -/
theorem Coherent.settle (k' : Machine) (hc : k.Coherent) (htasks : k'.tasks = k.settledTasks)
    (hb : k'.bootstrap = k.bootstrap) (hcur : k'.current = k.current) (hp : k'.prev = none)
    (hl : k'.loaded = k.loaded) :
    k'.Coherent ∧ k'.phase = k.phase ∧ (∀ i, KeptAt i k k') ∧
      ∀ y, y.state ≠ .dead → ∀ i : ℕ, k.tasks[i]? = some y → k'.tasks[i]? = some y := by
  cases hprev : k.prev with
  | none =>
    have heq : k'.tasks = k.tasks := by rw [htasks, settledTasks, hprev]
    refine ⟨⟨?_, ?_, ?_, ?_, ?_, ?_⟩, ?_, ?_, ?_⟩
    · rw [heq, hl]; exact hc.ok
    · rw [heq, hcur]; exact hc.running
    · rw [heq, hcur]; exact hc.current
    · rw [hcur, hl]; exact hc.loaded
    · rw [hp]; intro i hi; cases hi
    · rw [hcur, hb]; exact hc.bootstrap
    · funext i; simp only [phase, heq, hl]
    · intro i; exact .inl (by rw [heq])
    · intro y _ i hi; rw [heq, hi]
  | some p =>
    have heq : k'.tasks = k.tasks.modify p reap := by rw [htasks, settledTasks, hprev]
    obtain ⟨y, hy⟩ : ∃ y, k.tasks[p]? = some y := ⟨_, List.getElem?_eq_getElem (hc.prev p hprev).2⟩
    let k₁ : Machine := { k' with prev := k.prev }
    have hc₁ : k₁.Coherent := hc.modify (f := reap) hy heq hb hcur rfl hl
      (reap_ok (hc.ok p _ hy)) (by rw [reap_state])
    refine ⟨⟨hc₁.ok, hc₁.running, hc₁.current, hc₁.loaded, ?_, hc₁.bootstrap⟩, ?_, ?_, ?_⟩
    · rw [hp]; intro i hi; cases hi
    · rw [phase_modify k' hy heq hl, reap_phase, ← phase_eq hy, Function.update_eq_self]
    · intro i
      by_cases hi : p = i
      · subst hi
        by_cases hd : y.state = .dead
        · exact .inr ⟨_, hy, hd, by simp [heq, hy, reap_of_dead hd, Task.holdings]⟩
        · exact .inl (by simp [heq, hy, reap_of_live hd])
      · exact .inl (by simp [heq, hi])
    · intro z hd i hi
      by_cases hpi : p = i
      · subst hpi
        simp [heq, hi, reap_of_live hd]
      · simp [heq, hpi, hi]

/-- The current task starts on its continuation: the mailbox is taken if the
continuation is a receive's, and from then on the task is at large. -/
theorem Coherent.unload (k' : Machine) (hc : k.Coherent) (hk : k.current = some t)
    (hx : k.tasks[t]? = some x) (hp : k'.prev = none)
    (htasks : k'.tasks = k.tasks.modify t fun y => { y with mailbox := none })
    (hb : k'.bootstrap = k.bootstrap) (hcur : k'.current = k.current) (hl' : k'.loaded = none) :
    k'.Coherent ∧ k'.phase = Function.update k.phase t .free := by
  have hrun : x.state = .running := (hc.running t x hx).mpr hk
  have hstopped : ∀ (i : ℕ) (y : Task), t ≠ i → k.tasks[i]? = some y → y.state ≠ .running := by
    intro i y hi hy hr
    exact hi (Option.some.inj (hk.symm.trans ((hc.running i y hy).mp hr)))
  constructor
  · constructor
    · intro i y hy
      rw [htasks] at hy
      rw [hl']
      by_cases hi : t = i
      · subst hi
        obtain rfl : { x with mailbox := none } = y := by simpa [hx] using hy
        have hok := hc.ok t x hx
        simp only [Task.Ok, hrun] at hok ⊢
        exact ⟨hok.1, rfl, fun r hr => by cases hr⟩
      · have hy' : k.tasks[i]? = some y := by simpa [hi] using hy
        exact (Task.ok_of_stopped _ (hstopped i y hi hy')).mp (hc.ok i y hy')
    · intro i y hy
      rw [htasks] at hy
      rw [hcur]
      by_cases hi : t = i
      · subst hi
        obtain rfl : { x with mailbox := none } = y := by simpa [hx] using hy
        exact hc.running t x hx
      · exact hc.running i y (by simpa [hi] using hy)
    · rw [hcur, htasks, List.length_modify]
      exact hc.current
    · rw [hl']; intro r hr; cases hr
    · rw [hp]; intro i hi; cases hi
    · rw [hcur, hb]; exact hc.bootstrap
  · funext i
    by_cases hi : t = i
    · subst hi
      simp [phase, htasks, hx, Task.phase, hrun, hl']
    · rw [Function.update_of_ne (Ne.symm hi)]
      cases hy : k.tasks[i]? with
      | none => simp [phase, htasks, hi, hy]
      | some y =>
        have hst := hstopped i y hi hy
        simp only [phase, htasks, List.getElem?_modify_ne _ _ hi, hy]
        rw [Task.phase_of_stopped _ hst, Task.phase_of_stopped k.loaded hst]

/-- One turn of `start`'s loop: the first ready task is switched to, or none is. -/
theorem startLoop_spec (hc : k.Coherent) (hcur : k.current = none) (hl : k.loaded = none) :
    ∃ k', k.startLoop = .ok k' ∧ k'.Coherent ∧ k'.net = k.net ∧ Switched k k' := by
  unfold startLoop
  split
  · rename_i first hfirst
    obtain ⟨y, hy, hready⟩ := firstReady_some hfirst
    have hs := hc.settled hcur hl
    have hs' : (k.saved none .inStart).Settled := ⟨hs.ok, hs.stopped⟩
    exact dispatch_spec hs' hl rfl (fun i hi => by cases hi) hy hready
  · exact ⟨k, by rw [← hl], hc, rfl, rfl, rfl, rfl, rfl⟩

/-- What running a loaded continuation did. -/
inductive Resumed (heap : Heap) (k k' : Machine) : Prop
  | quiet (h : Quiet k k')
  /-- a woken receive came back with what was in its mailbox -/
  | delivered (t : ℕ) (x x' : Task) (ep : Fin numEndpoints) (caller : Caller) (km : KMessage)
      (hk : k.current = some t) (hx : k.tasks[t]? = some x)
      (hl : k.loaded = some (.recvParked ep caller)) (hmail : x.mailbox = some km)
      (hcoh : k'.Coherent) (hwire : Net.Step ringCap k.net k'.net)
      (hkept : ∀ i, t ≠ i → KeptAt i k k') (hipc : k'.ipc = k.ipc)
      (hobj : k'.objects = k.objects) (hx' : k'.tasks[t]? = some x')
      (hdel : Delivered heap t caller km { x with mailbox := none } x' k.log k'.log)

/-- The state a continuation of the current task starts in, after `post_switch`. -/
theorem resumed_start {r : Resume} (hc : k.Coherent) (hk : k.current = some t)
    (hx : k.tasks[t]? = some x) (hl : k.loaded = some r) (hr : r.awaits = false) (k' : Machine)
    (hp : k'.prev = none) (htasks : k'.tasks = k.settledTasks) (hb : k'.bootstrap = k.bootstrap)
    (hcur : k'.current = k.current) (hl' : k'.loaded = none) :
    k'.Coherent ∧ k'.phase = Function.update k.phase t .free ∧ k'.tasks[t]? = some x ∧
      ∀ i, KeptAt i k k' := by
  have hrun : x.state = .running := (hc.running t x hx).mpr hk
  have hmail : x.mailbox = none := by
    have hok := hc.ok t x hx
    simp only [Task.Ok, hrun, hl, Option.map_some, Option.getD_some, hr] at hok
    simpa using hok.2.1
  let kr : Machine := { k' with loaded := k.loaded }
  obtain ⟨hcr, hphase, hkept, hlive⟩ := hc.settle kr htasks hb hcur hp rfl
  have hx' : kr.tasks[t]? = some x := hlive x (by simp [hrun]) t hx
  obtain ⟨hc', hphase'⟩ := hcr.unload k' (hcur.trans hk) hx' hp
    (modify_self hx' (by cases x; cases hmail; rfl)).symm rfl rfl hl'
  refine ⟨hc', ?_, hx', hkept⟩
  rw [hphase', hphase]

/-- The machine as a continuation finds it after `post_switch`. -/
def settled (s : Stats) (k : Machine) : Machine :=
  { k with loaded := none, prev := none, tasks := k.settledTasks, stats := s }

theorem Coherent.settled_eq (hc : k.Coherent) :
    ∃ s, ({ k with loaded := none } : Machine).postSwitch = .ok (k.settled s) :=
  postSwitch_eq (k := { k with loaded := none }) fun i hi => (hc.prev i hi).2

/-- The bootstrap context comes back into `start`'s loop. -/
theorem resume_inStart (heap : Heap) (hc : k.Coherent) (hr : k.loaded = some .inStart)
    (hcur : k.current = none) : ∃ k', k.resume heap = .ok k' ∧ Quiet k k' := by
  let k₀ : Machine := { k with loaded := none, cpu := { k.cpu with cr3 := k.kernelRoot } }
  obtain ⟨s, hpost⟩ := postSwitch_eq (k := k₀) fun i hi => (hc.prev i hi).2
  let k₁ : Machine := { k₀ with prev := none, tasks := k₀.settledTasks, stats := s }
  obtain ⟨hcr, hphase, hkept, -⟩ :=
    hc.settle { k₁ with loaded := k.loaded } rfl rfl rfl rfl rfl
  have hstopped : ∀ (i : ℕ) (y : Task), k₁.tasks[i]? = some y → y.state ≠ .running := by
    intro i y hy hrun
    have := (hcr.running i y hy).mp hrun
    rw [show ({ k₁ with loaded := k.loaded } : Machine).current = none from hcur] at this
    cases this
  have hc₁ : k₁.Coherent := by
    refine ⟨fun i y hy => ?_, hcr.running, hcr.current, ?_, ?_, hcr.bootstrap⟩
    · exact (Task.ok_of_stopped _ (hstopped i y hy)).mp (hcr.ok i y hy)
    · intro r hr'; cases hr'
    · intro i hi; cases hi
  have hnet₁ : k₁.net = k.net := by
    refine Net.ext rfl (Eq.trans ?_ hphase) rfl
    funext i
    cases hy : k₁.tasks[i]? with
    | none => simp [net, phase, hy]
    | some y =>
      simp only [net, phase, hy]
      rw [Task.phase_of_stopped _ (hstopped i y hy), Task.phase_of_stopped k.loaded (hstopped i y hy)]
  obtain ⟨k', hloop, hc', hnet, hswd⟩ := startLoop_spec hc₁ hcur rfl
  refine ⟨k', ?_, hc', .inl (hnet.trans hnet₁), ?_, hswd.ipc, hswd.objects, .of_log hswd.log⟩
  · unfold resume
    rw [hr]
    simp only [enter_none_eq]
    exact (congrArg (· >>= startLoop) hpost).trans hloop
  · intro i
    have hki := hkept i
    unfold KeptAt at hki ⊢
    rwa [← List.getElem?_map, hswd.holdings, List.getElem?_map]

theorem takeMailbox_eq {km : KMessage} (hk : k.current = some t) (hx : k.tasks[t]? = some x)
    (hmail : x.mailbox = some km) : k.takeMailbox = .ok (km, { k with
      tasks := k.tasks.modify t fun y => { y with mailbox := none } }) := by
  simp only [takeMailbox, currentId_eq hk, ok_bind, task_eq hx, hmail,
    onTask_eq _ (lt_of_getElem? hx)]

/-- A woken receive takes its mailbox and goes back to its caller with it. -/
theorem resume_recvParked (heap : Heap) (hc : k.Coherent) {ep : Fin numEndpoints} {caller : Caller}
    (hl : k.loaded = some (.recvParked ep caller)) (hk : k.current = some t)
    (hx : k.tasks[t]? = some x) :
    ∃ km k' x', x.mailbox = some km ∧ k.resume heap = .ok k' ∧ k'.Coherent ∧
      Net.Step ringCap k.net k'.net ∧ (∀ i, t ≠ i → KeptAt i k k') ∧ k'.ipc = k.ipc ∧
      k'.objects = k.objects ∧ k'.tasks[t]? = some x' ∧ x'.mailbox = none ∧
      Delivered heap t caller km { x with mailbox := none } x' k.log k'.log := by
  have hrun : x.state = .running := (hc.running t x hx).mpr hk
  have hok := hc.ok t x hx
  simp only [Task.Ok, hrun, hl, Option.map_some, Option.getD_some] at hok
  obtain ⟨km, hmail⟩ := Option.isSome_iff_exists.mp hok.2.1
  have hhanded : k.net.phase t = .handed km := by
    refine (phase_eq hx).trans ?_
    simp [Task.phase, hrun, hl, hmail, Resume.phase]
  obtain ⟨s, hpost⟩ := hc.settled_eq
  obtain ⟨hcr, hphaser, hkept, hlive⟩ :=
    hc.settle { k.settled s with loaded := k.loaded } rfl rfl rfl rfl rfl
  have hx₁ : (k.settled s).tasks[t]? = some x := hlive x (by simp [hrun]) t hx
  let f : Task → Task := fun y => { y with mailbox := none }
  let k₂ : Machine := { k.settled s with
    tasks := (k.settled s).tasks.modify t f
    stats := { s with received := s.received + 1 } }
  obtain ⟨hc₂, hphase₂⟩ := hcr.unload k₂ hk hx₁ rfl rfl rfl rfl rfl
  have hx₂ : k₂.tasks[t]? = some (f x) := by simp [k₂, hx₁]
  have hhost : (f x).Hosts caller :=
    Task.fits_of_reach (r := .recvParked ep caller) rfl (hok.2.2 _ rfl)
  obtain ⟨k', x', hret, hown, hx', hdel⟩ := returnRecv_spec (k := k₂) heap caller km hk hx₂ hhost
  have hempty : x'.mailbox = none := by
    obtain ⟨caps, mem, hx''⟩ := hown.getElem?_self hx₂
    rw [Option.some.inj (hx'.symm.trans hx'')]
    rfl
  have hwire : Net.Step ringCap k.net k'.net := by
    have hnet : k'.net = ⟨k.net.chan, Function.update k.net.phase t .free,
        .got t km :: k.net.history⟩ := by
      refine Net.ext ?_ (hown.sameSched.phase.trans (hphase₂.trans ?_)) hdel.traffic
      · simp [net, hown.ipc, k₂, settled]
      · rw [hphaser]
        rfl
    rw [hnet]
    exact .resumeRecv hhanded
  refine ⟨km, k', x', hmail, ?_, hown.sameSched.coherent hc₂, hwire, ?_, hown.ipc, hown.objects,
    hx', hempty, hdel⟩
  · unfold resume
    rw [hl]
    simp only [hpost, ok_bind]
    rw [takeMailbox_eq (k := k.settled s) hk hx₁ hmail, ok_bind]
    exact hret
  · intro i hi
    have hki := hkept i
    unfold KeptAt at hki ⊢
    rwa [hown.getElem?_ne hi, show k₂.tasks[i]? = (k.settled s).tasks[i]? from
      List.getElem?_modify_ne _ _ hi]

theorem resume_spec (heap : Heap) (hc : k.Coherent) (hl : k.loaded.isSome) :
    ∃ k', k.resume heap = .ok k' ∧ Resumed heap k k' := by
  obtain ⟨r, hr⟩ := Option.isSome_iff_exists.mp hl
  rcases hc.loaded r hr with ⟨rfl, hcur⟩ | ⟨hof, hcur⟩
  · obtain ⟨k', hres, hquiet⟩ := resume_inStart heap hc hr hcur
    exact ⟨k', hres, .quiet hquiet⟩
  obtain ⟨t, hk⟩ := Option.isSome_iff_exists.mp hcur
  obtain ⟨x, hx⟩ : ∃ x, k.tasks[t]? = some x := ⟨_, List.getElem?_eq_getElem (hc.current t hk)⟩
  have hrun : x.state = .running := (hc.running t x hx).mpr hk
  have hok := hc.ok t x hx
  simp only [Task.Ok, hrun, hr, Option.map_some, Option.getD_some] at hok
  have hphase : k.phase t = r.phase x.mailbox := by
    rw [phase_eq hx, hr]
    simp [Task.phase, hrun]
  obtain ⟨s, hpost⟩ := hc.settled_eq
  obtain ⟨hcr, hphaser, hkept, hlive⟩ :=
    hc.settle { k.settled s with loaded := k.loaded } rfl rfl rfl rfl rfl
  have hx₁ : (k.settled s).tasks[t]? = some x := hlive x (by simp [hrun]) t hx
  -- a continuation without a message goes back to its caller, at large again
  have hquiet : r.awaits = false → (k.phase t = .free ∨ k.phase t = .released) →
      ∀ k', Own t (k.settled s) k' → k'.tasks = (k.settled s).tasks →
        traffic k'.log = traffic k.log → Grew (fun ev => ev.closing) k k' → Quiet k k' := by
    intro ha hph k' hown htasks htr hgrew
    obtain ⟨hc₁, hphase₁, -⟩ := resumed_start hc hk hx hr ha (k.settled s) rfl rfl rfl rfl rfl
    have hnet : k'.net = { k.net with phase := Function.update k.phase t .free } :=
      Net.ext (by simp [net, hown.ipc, settled]) (hown.sameSched.phase.trans hphase₁) htr
    refine ⟨hown.sameSched.coherent hc₁, ?_, ?_, hown.ipc, hown.objects, hgrew⟩
    · rcases hph with hph | hph
      · left
        rw [hnet, ← hph, Function.update_eq_self]
        rfl
      · right
        rw [hnet]
        exact .resumeSend hph
    · intro i
      have hki := hkept i
      unfold KeptAt at hki ⊢
      rwa [htasks]
  unfold resume
  rw [hr]
  cases r with
  | trampoline =>
    exact ⟨_, hpost, .quiet (hquiet rfl (.inl hphase) _ (.refl hx₁) rfl rfl (.of_log rfl))⟩
  | preempted =>
    simp only [hpost, ok_bind]
    exact ⟨_, rfl, .quiet (hquiet rfl (.inl hphase) _
      (.of_tasks hx₁ rfl rfl rfl rfl rfl rfl rfl) rfl rfl (.of_log rfl))⟩
  | yielded frame corrupt =>
    simp only [hpost, ok_bind]
    rw [sysret_eq frame corrupt _ (by exact hk)]
    exact ⟨_, rfl, .quiet (hquiet rfl (.inl hphase) _
      (.of_tasks hx₁ rfl rfl rfl rfl rfl rfl rfl) rfl rfl (.of_cons rfl rfl))⟩
  | sendParked ep caller =>
    simp only [hpost, ok_bind]
    let k₂ : Machine := (k.settled s).count fun s => { s with sent := s.sent + 1 }
    obtain ⟨k', hret, hown, htasks, htr, hgrew⟩ :=
      returnSend_spec (k := k₂) caller (.ok ()) hk hx₁ fun e he => by cases he
    have hown₂ : Own t (k.settled s) k₂ := .of_tasks hx₁ rfl rfl rfl rfl rfl rfl rfl
    exact ⟨k', hret, .quiet (hquiet rfl (.inr hphase) _ (hown₂.trans hown) htasks htr
      (hgrew.mono fun ev hev => hev.1))⟩
  | recvParked ep caller =>
    obtain ⟨km, k', x', hmail, hres, hcoh, hwire, hkept', hipc, hobj, hx', -, hdel⟩ :=
      resume_recvParked heap hc hr hk hx
    refine ⟨k', ?_, .delivered t x x' ep caller km hk hx hr hmail hcoh hwire hkept' hipc hobj
      hx' hdel⟩
    rw [← hres, resume, hr]
  | inStart => cases hof
  | exited => cases hof

/-! ### Every act -/

/-- What one act did. -/
inductive Outcome (heap : Heap) (k k' : Machine) : Act → Prop
  | quiet {act : Act} (h : Quiet k k') : Outcome heap k k' act
  | joined {stack : Option UInt64} {space : Option UserSpace} {grants : List Cap} (task : Task)
      (hcaps : grantTable heap grants emptyCaps = some task.caps) (hmail : task.mailbox = none)
      (htasks : k'.tasks = k.tasks ++ [task]) (hcoh : k'.Coherent)
      (hwire : Net.Step ringCap k.net k'.net) (hipc : k'.ipc = k.ipc)
      (hobj : k'.objects = k.objects) (hlog : k'.log = .spawned k.tasks.length grants :: k.log) :
      Outcome heap k k' (.spawn stack space grants)
  | served {frame : Frame} (t : ℕ) (x : Task) (hk : k.current = some t)
      (hx : k.tasks[t]? = some x) (h : Reply heap t x frame k k') :
      Outcome heap k k' (.syscall frame)
  | sent {ep : ℕ} {km : KMessage} (t : ℕ) (hk : k.current = some t)
      (h : SendPost t ep km none k k') : Outcome heap k k' (.send ep km)
  | received {ep : ℕ} (t : ℕ) (x : Task) (hk : k.current = some t) (hx : k.tasks[t]? = some x)
      (h : RecvPost heap t ep .thread x k k') : Outcome heap k k' (.recv ep)
  | stored {addr value : UInt64} (t : ℕ) (x : Task) (mem : UInt64 → UInt64)
      (hk : k.current = some t) (hx : k.tasks[t]? = some x)
      (h : k' = k.rewriteTask t x.caps mem) : Outcome heap k k' (.store addr value)
  /-- an object was created, or could not be -/
  | created {object : Object} (htasks : k'.tasks = k.tasks) (hsched : SameSched k k')
      (hipc : k'.ipc = k.ipc)
      (hobj : (k'.objects = k.objects ∧ k'.log = k.log) ∨
        ∃ r, Obj.create (heap.serves (k.objects.length + 1)) object k.objects =
          (some r, k'.objects) ∧ k'.log = .created r object :: k.log) :
      Outcome heap k k' (.create object)
  /-- kernel code revoked an object, or found it gone -/
  | destroyed {r : ObjectRef} (htasks : k'.tasks = k.tasks) (hsched : SameSched k k')
      (hipc : k'.ipc = k.ipc)
      (hobj : (k'.objects = k.objects ∧ k'.log = k.log) ∨
        Obj.revoke r k.objects = (true, k'.objects) ∧ k'.log = .revoked r :: k.log) :
      Outcome heap k k' (.revoke r)
  | resumed (h : Resumed heap k k') : Outcome heap k k' .resume

/-- A new task joins ready, with nothing in its mailbox. -/
theorem Coherent.spawn {task : Task} {r : Resume} (k' : Machine) (hc : k.Coherent)
    (hl : k.loaded = none) (htasks : k'.tasks = k.tasks ++ [task]) (hready : task.state = .ready)
    (hctx : task.ctx = .saved r) (hr : r = .trampoline) (hmail : task.mailbox = none)
    (hb : k'.bootstrap = k.bootstrap) (hcur : k'.current = k.current) (hp : k'.prev = k.prev)
    (hl' : k'.loaded = k.loaded) :
    k'.Coherent ∧ k.phase k.tasks.length = .absent ∧
      k'.phase = Function.update k.phase k.tasks.length .free := by
  subst hr
  have hcases : ∀ (i : ℕ) (y : Task), k'.tasks[i]? = some y →
      k.tasks[i]? = some y ∨ (i = k.tasks.length ∧ y = task) := by
    intro i y hy
    rw [htasks] at hy
    grind
  refine ⟨⟨?_, ?_, ?_, ?_, ?_, ?_⟩, ?_, ?_⟩
  · intro i y hy
    rcases hcases i y hy with hy | ⟨-, rfl⟩
    · exact hl' ▸ hc.ok i y hy
    · simp only [Task.Ok, hready]
      exact ⟨_, hctx, rfl, by simp [hmail, Resume.awaits], trivial⟩
  · intro i y hy
    rcases hcases i y hy with hy | ⟨rfl, rfl⟩
    · rw [hcur]; exact hc.running i y hy
    · have hne : k'.current ≠ some k.tasks.length := by
        rw [hcur]
        intro h
        exact Nat.lt_irrefl _ (hc.current _ h)
      simp [hready, hne]
  · intro i hi
    have := hc.current i (hcur ▸ hi)
    simp [htasks]
    omega
  · rw [hcur, hl']; exact hc.loaded
  · intro i hi
    have := hc.prev i (hp ▸ hi)
    rw [hl] at this
    exact absurd this.1 (by simp)
  · rw [hcur, hb]; exact hc.bootstrap
  · simp [phase]
  · funext i
    by_cases hi : i = k.tasks.length
    · subst hi
      simp [phase, htasks, Task.phase, hready, hctx, Resume.phase]
    · rw [Function.update_of_ne hi]
      rcases Nat.lt_or_gt_of_ne hi with hlt | hgt
      · simp [phase, htasks, hl', List.getElem?_append_left hlt]
      · rw [phase, phase, htasks, List.getElem?_eq_none (by simp; omega),
          List.getElem?_eq_none (by omega)]

theorem spawn_outcome (heap : Heap) (stack : Option UInt64) (space : Option UserSpace)
    (grants : List Cap) (hc : k.Coherent) (hl : k.loaded = none) :
    Outcome heap k (k.spawnUser heap stack space grants) (.spawn stack space grants) := by
  have hself : Quiet k k := ⟨hc, .inl rfl, fun i => .inl rfl, rfl, rfl, .of_log rfl⟩
  unfold spawnUser
  split
  · exact .quiet hself
  · rename_i caps hcaps
    cases stack with
    | none => exact .quiet hself
    | some top =>
      let task : Task :=
        { ctx := .saved .trampoline
          stack := stackWords
          kernelStackTop := top
          cr3 := (space.map UserSpace.root).getD k.cpu.cr3
          space := space
          caps := caps
          mailbox := none
          state := .ready }
      let k' : Machine := { k with
        tasks := k.tasks ++ [task]
        log := .spawned k.tasks.length grants :: k.log }
      obtain ⟨hc', hgone, hphase⟩ := hc.spawn k' hl rfl rfl rfl rfl rfl rfl rfl
        rfl rfl
      have hwire : Net.Step ringCap k.net k'.net := by
        rw [show k'.net = { k.net with phase := Function.update k.phase k.tasks.length .free } from
          Net.ext rfl hphase rfl]
        exact .join hgone
      exact .joined task hcaps rfl rfl hc' hwire rfl rfl rfl

theorem Outcome.refines {heap : Heap} {act : Act} {k' : Machine} (hc : k.Coherent)
    (h : Outcome heap k k' act) :
    k'.Coherent ∧ (k'.net = k.net ∨ Net.Step ringCap k.net k'.net) := by
  cases h with
  | quiet h => exact ⟨h.coherent, h.wire⟩
  | joined task hcaps hmail htasks hcoh hwire => exact ⟨hcoh, .inr hwire⟩
  | served t x hk hx h =>
    cases h with
    | early rc h => exact ⟨h.own.sameSched.coherent hc, .inl h.net⟩
    | quiet hcall h => exact ⟨h.coherent, h.wire⟩
    | sent hcall ep obj km hent h => exact ⟨h.coherent, h.wire⟩
    | received hcall ep obj corrupt hauth hwrite h => exact ⟨h.coherent, h.wire⟩
    | revoked hcall c hcap hobj htasks hipc hsched rip hlog =>
      exact ⟨hsched.coherent hc, .inl (Net.ext (by simp [net, hipc]) hsched.phase
        (by rw [net, net, hlog]; rfl))⟩
  | sent t hk h => exact ⟨h.coherent, h.wire⟩
  | received t x hk hx h => exact ⟨h.coherent, h.wire⟩
  | stored t x mem hk hx h =>
    have hown : Own t k k' := h ▸ own_rewriteTask x.caps mem
    exact ⟨hown.sameSched.coherent hc,
      .inl (Net.ext (by simp [net, hown.ipc]) hown.sameSched.phase (by rw [h]; rfl))⟩
  | created htasks hsched hipc hobj =>
    refine ⟨hsched.coherent hc, .inl (Net.ext (by simp [net, hipc]) hsched.phase ?_)⟩
    rcases hobj with ⟨-, hlog⟩ | ⟨r, -, hlog⟩
    · rw [net, net, hlog]
    · rw [net, net, hlog]; rfl
  | destroyed htasks hsched hipc hobj =>
    refine ⟨hsched.coherent hc, .inl (Net.ext (by simp [net, hipc]) hsched.phase ?_)⟩
    rcases hobj with ⟨-, hlog⟩ | ⟨-, hlog⟩
    · rw [net, net, hlog]
    · rw [net, net, hlog]; rfl
  | resumed h =>
    cases h with
    | quiet h => exact ⟨h.coherent, h.wire⟩
    | delivered _ _ _ _ _ _ _ _ _ _ hcoh hwire => exact ⟨hcoh, .inr hwire⟩

/-- Every enabled act of a coherent machine is served. -/
theorem step_outcome (heap : Heap) (act : Act) (hc : k.Coherent) (hq : k.net.Queued ringCap)
    (he : k.Enabled act) : ∃ k', k.step heap act = .ok k' ∧ Outcome heap k k' act := by
  cases act with
  | spawn stack space grants => exact ⟨_, rfl, spawn_outcome heap stack space grants hc he.1⟩
  | start =>
    have hsame : SameSched k { k with kernelRoot := k.cpu.cr3 } := ⟨rfl, rfl, rfl, rfl, rfl⟩
    obtain ⟨k', hstart, hc', hnet, hswd⟩ :=
      startLoop_spec (k := { k with kernelRoot := k.cpu.cr3 }) (hsame.coherent hc) he.2 he.1
    exact ⟨k', hstart, .quiet (.of_switched hc' (.inl hnet)
      ⟨hswd.holdings, hswd.ipc, hswd.objects, hswd.log⟩)⟩
  | timer =>
    let k₁ : Machine := { k with needResched := false }
    have hsame : SameSched k k₁ := ⟨rfl, rfl, rfl, rfl, rfl⟩
    rcases reschedule_spec (k := k₁) (r := .preempted) (hsame.coherent hc) he rfl rfl
      (fun m => rfl) with hno | ⟨k', hyes, hc', hswd, hnet⟩
    · refine ⟨k₁, ?_, .quiet ⟨hsame.coherent hc, .inl rfl, fun i => .inl rfl, rfl, rfl, .of_log rfl⟩⟩
      simp only [step, onIrqEpilogue, requestResched, if_true]
      rw [hno]
      rfl
    · refine ⟨k', ?_, .quiet (.of_switched hc' (.inl hnet)
        ⟨hswd.holdings, hswd.ipc, hswd.objects, hswd.log⟩)⟩
      simp only [step, onIrqEpilogue, requestResched, if_true]
      rw [hyes]
      rfl
  | syscall frame =>
    obtain ⟨hl, t, x, hk, hx, -⟩ := he
    obtain ⟨k', hcall, h⟩ := onSyscall_spec heap frame hc hq hk hx hl
    exact ⟨k', hcall, .served t x hk hx h⟩
  | send ep km =>
    obtain ⟨t, hk⟩ := Option.isSome_iff_exists.mp he.2
    obtain ⟨k', hsend, h⟩ := send_spec hc hq hk he.1 ep km .thread
    exact ⟨k', hsend, .sent t hk h⟩
  | recv ep =>
    obtain ⟨t, hk⟩ := Option.isSome_iff_exists.mp he.2
    obtain ⟨x, hx, -⟩ := hc.current_task hk he.1
    obtain ⟨k', hrecv, h⟩ := recv_spec heap hc hq hk hx he.1 ep .thread trivial
    exact ⟨k', hrecv, .received t x hk hx h⟩
  | exit =>
    obtain ⟨t, hk⟩ := Option.isSome_iff_exists.mp he.2
    obtain ⟨k', hexit, h⟩ := exit_quiet hc hq hk he.1
    exact ⟨k', hexit, .quiet h⟩
  | store addr value =>
    obtain ⟨hl, t, x, hk, hx, hs⟩ := he
    obtain ⟨s, hs⟩ := Option.isSome_iff_exists.mp hs
    refine ⟨k.rewriteTask t x.caps (Function.update s.mem addr value), ?_, .stored t x _ hk hx rfl⟩
    unfold step
    dsimp only
    split
    · rename_i hnone
      rw [hk] at hnone
      cases hnone
    · rename_i me hme
      obtain rfl : t = me := Option.some.inj (hk.symm.trans hme)
      rw [onTask_eq _ (lt_of_getElem? hx), rewriteTask_eq hx]
      simp [Task.rewrite, hs]
  | create object =>
    unfold step
    dsimp only
    rcases Obj.create_cases (heap.serves (k.objects.length + 1)) object k.objects with
      hno | ⟨objects, hyes, -⟩
    · rw [hno]
      exact ⟨_, rfl, .created rfl ⟨rfl, rfl, rfl, rfl, rfl⟩ rfl (.inl ⟨rfl, rfl⟩)⟩
    · rw [hyes]
      exact ⟨_, rfl, .created rfl ⟨rfl, rfl, rfl, rfl, rfl⟩ rfl (.inr ⟨_, hyes, rfl⟩)⟩
  | revoke r =>
    unfold step
    dsimp only
    rcases Obj.revoke_cases r k.objects with ⟨hno, -⟩ | ⟨slot, -, -, -, hyes⟩
    · rw [hno]
      exact ⟨_, rfl, .destroyed rfl ⟨rfl, rfl, rfl, rfl, rfl⟩ rfl (.inl ⟨rfl, rfl⟩)⟩
    · rw [hyes]
      exact ⟨_, rfl, .destroyed rfl ⟨rfl, rfl, rfl, rfl, rfl⟩ rfl (.inr ⟨hyes, rfl⟩)⟩
  | arm =>
    have hsame : SameSched k { k with armNoncanonical := true } := ⟨rfl, rfl, rfl, rfl, rfl⟩
    exact ⟨_, rfl, .quiet ⟨hsame.coherent hc, .inl rfl, fun i => .inl rfl, rfl, rfl, .of_log rfl⟩⟩
  | resume =>
    obtain ⟨k', hres, h⟩ := resume_spec heap hc he
    exact ⟨k', hres, .resumed h⟩

end Machine

end StarOs.Kernel
