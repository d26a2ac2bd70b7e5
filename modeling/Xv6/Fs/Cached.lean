import Xv6.Block.Crash
import Xv6.Fs.Ownership

/-!
# The file system on the buffer cache

The programs of the file system on the buffers of `bio.c` and the log.  A program that runs alone and
hands every buffer it has changed to the log computes on the cache what it computes on the block store.
-/

namespace Xv6

open Function BState

/-- The contents of block `b` when no process is changing it: the logged contents, or else those on
disk. -/
def BState.view (s : BState) (b : ℕ) : Block :=
  if b ∈ s.log.lh.blocks then s.latest b else s.disk b

def BOp.Caching : BOp → Prop
  | .bget _ | .acquiresleep _ | .releasesleep _ | .holdingsleep _ | .valid _ | .diskRead _
  | .getData _ | .relse _ | .panic _ => True
  | _ => False

def BState.SameDisk (s s' : BState) : Prop :=
  s'.disk = s.disk ∧ s'.log = s.log ∧ s'.latest = s.latest

theorem exec_caching {p : ℕ} {o : BOp} {s s' : BState} {r : o.Res} (caching : o.Caching)
    (step : exec p o s = .ok (r, s')) : s.SameDisk s' := by
  cases o with
  | bget b =>
    simp only [exec] at step
    split at step <;> cases step
    exact ⟨rfl, rfl, rfl⟩
  | acquiresleep i =>
    simp only [exec] at step
    split at step <;> cases step
    exact ⟨rfl, rfl, rfl⟩
  | releasesleep i | holdingsleep i | valid i | diskRead i | getData i | relse i =>
    cases step
    exact ⟨rfl, rfl, rfl⟩
  | panic e => cases step
  | diskWrite | setData | bunpin | logStart | getLh | setLh | beginOp | endOp | endCommit | logWrite =>
    exact caching.elim

theorem bread_caching (b : ℕ) : (bread b).Only BOp.Caching := by
  refine ⟨trivial, fun i => ⟨trivial, fun _ => ⟨trivial, fun valid => ?_⟩⟩⟩
  cases valid with
  | true => trivial
  | false => exact ⟨trivial, fun _ => trivial⟩

theorem brelse_caching (i : ℕ) : (brelse i).Only BOp.Caching := by
  refine ⟨trivial, fun holding => ?_⟩
  cases holding with
  | true => exact ⟨trivial, fun _ => ⟨trivial, fun _ => trivial⟩⟩
  | false => exact ⟨trivial, nofun⟩

theorem sameDisk_of_caching {α : Type} {x : BProg α} (hx : x.Only BOp.Caching) (p : ℕ) (s : BState) :
    s.SameDisk (x.run (exec p) s).2 := by
  refine hx.run (fun o t r t' caching same step => ?_) ⟨rfl, rfl, rfl⟩
  obtain ⟨disk, log, latest⟩ := exec_caching caching step
  exact ⟨disk.trans same.1, log.trans same.2.1, latest.trans same.2.2⟩

end Xv6

namespace Xv6.Fs

open Function

/-- The program on the buffer cache; `h b` is the buffer of the locked block `b`. -/
def onCache {α : Type} (h : ℕ → ℕ) : FsProg α → BProg α
  | .ret a => .ret a
  | .op (.bread b) k => do
      let i ← Xv6.bread b
      let d ← atomic (.getData i)
      onCache (update h b i) (k d)
  | .op (.bset b d) k => do
      atomic (.setData (h b) d)
      onCache h (k ())
  | .op (.logWrite b) k => do
      Xv6.logWrite (h b)
      onCache h (k ())
  | .op (.brelse b) k => do
      Xv6.brelse (h b)
      onCache h (k ())
  | .op (.panic e) _ => .op (.panic e) nofun

/-! ## The store of a cache -/

/-- The strict environment of a log at `start`: every cached block has to agree with the disk. -/
def strictEnv (start size : ℕ) : Env := ⟨start, size, fun _ _ _ => True, True⟩

abbrev Alone (E : Env) (p : ℕ) (ℓ : Local) (s : BState) : Prop :=
  BInv E (update (fun _ => Local.init) p ℓ) s

section Alone

variable {E : Env} {p : ℕ} {ℓ : Local} {s : BState}

theorem Alone.local (inv : Alone E p ℓ s) : LocalOk E s p ℓ := by
  have own := inv.locals p
  rwa [update_self] at own

theorem Alone.notCommitting (inv : Alone E p ℓ s) (work : ℓ.work = none) :
    s.log.committing = false := by
  by_contra busy
  obtain ⟨q, w, hw⟩ := inv.worker (by simpa using busy)
  by_cases hq : q = p
  · subst hq
    rw [update_self, work] at hw
    cases hw
  · rw [update_of_ne hq] at hw
    cases hw

theorem Alone.pins (inv : Alone E p ℓ s) (work : ℓ.work = none) : s.pins = s.log.lh.blocks := by
  rw [BState.pins, inv.state.notInstalled (inv.notCommitting work), List.drop_zero]

theorem Alone.contents (inv : Alone E p ℓ s) (work : ℓ.work = none) (strict : E.strict) {i b : ℕ}
    (hi : i < NBUF) (caches : (s.cache.buf i).Caches b) (valid : (s.cache.buf i).valid = true)
    (clean : ∀ x, ℓ.held i = some x → x.dirty = false) : (s.cache.buf i).data = s.view b := by
  unfold BState.view
  split_ifs with logged
  · obtain ⟨j, hj, hc, -, data⟩ := inv.state.pinned b (by rwa [inv.pins work])
    rw [inv.state.wf.unique i hi j hj b caches hc, data]
  · have coherent := inv.coherent i hi (.inl strict) caches.1 valid
    rw [caches.2, inv.pins work] at coherent
    refine coherent logged ?_
    rintro ⟨q, x, hx, dirty⟩
    by_cases hq : q = p
    · subst hq
      rw [update_self] at hx
      rw [clean x hx] at dirty
      cases dirty
    · rw [update_of_ne hq] at hx
      cases hx

theorem Alone.run (inv : Alone E p ℓ s) {α : Type} {x : BProg α} {Q : α → Local → Prop}
    (safe : BSafe E p x ℓ Q) {a : α} {s' : BState} (returns : x.run (BState.exec p) s = (.ok a, s')) :
    ∃ ℓ', Alone E p ℓ' s' ∧ Q a ℓ' := by
  obtain ⟨ℓ', inv', post, -⟩ := safe.run_inv inv (update_self ..)
  rw [returns, update_idem] at inv'
  rw [returns] at post
  exact ⟨ℓ', inv', post a rfl⟩

theorem view_congr {s' : BState} (same : s.SameDisk s') (b : ℕ) : s'.view b = s.view b := by
  unfold BState.view
  rw [same.1, same.2.1, same.2.2]

theorem Alone.bread (inv : Alone E p ℓ s) (work : ℓ.work = none) (strict : E.strict) {b i : ℕ}
    {s' : BState} (returns : (Xv6.bread b).run (BState.exec p) s = (.ok i, s')) :
    Alone E p (ℓ.hold i ⟨b, .data (s.view b), false⟩) s' ∧ ℓ.held i = none ∧ s.SameDisk s' ∧
      (s'.cache.buf i).data = s.view b := by
  obtain ⟨ℓ', inv', unlocked, d, rfl⟩ := inv.run
    (Q := fun i ℓ' => ℓ.held i = none ∧ ∃ d, ℓ' = ℓ.hold i ⟨b, .data d, false⟩)
    (safe_bread fun i d free _ => ⟨free, d, rfl⟩) returns
  have same : s.SameDisk s' := by
    have run := sameDisk_of_caching (bread_caching b) p s
    rwa [returns] at run
  obtain ⟨hi, caches, valid, data⟩ := inv'.local.held i _ (Local.hold_self ..)
  have clean : ∀ x, (ℓ.hold i ⟨b, .data d, false⟩).held i = some x → x.dirty = false := by
    intro x hx
    rw [Local.hold_self] at hx
    cases hx
    rfl
  have contents := inv'.contents work strict hi caches valid clean
  rw [view_congr same] at contents
  obtain rfl : d = s.view b := data.symm.trans contents
  exact ⟨inv', unlocked, same, contents⟩

end Alone

/-- The cache `s`, used by process `p` alone, shows the state `t` of the block store. -/
structure Cached (E : Env) (p : ℕ) (t : FsState) (s : BState) (ℓ : Local) (h : ℕ → ℕ) : Prop where
  inv : Alone E p ℓ s
  extra : ℓ.extra = []
  work : ℓ.work = none
  held : ∀ b ∈ t.held, ∃ dty, ℓ.held (h b) = some ⟨b, .data (t.store b), dty⟩ ∧
    (dty = true → b ∈ t.dirty)
  only : ∀ i x, ℓ.held i = some x → x.blockno ∈ t.held ∧ h x.blockno = i
  nodup : t.held.Nodup
  mine : ∀ b ∈ t.logged, b ∈ ℓ.mine
  view : ∀ b, E.Home b → b ∉ t.held → t.store b = s.view b

namespace Cached

variable {E : Env} {p : ℕ} {t : FsState} {s s' : BState} {ℓ : Local} {h : ℕ → ℕ} {b : ℕ}

section

variable (c : Cached E p t s ℓ h)
include c

theorem bread (strict : E.strict) (home : E.Home b) (free : b ∉ t.held)
    {i : ℕ} (returns : (Xv6.bread b).run (BState.exec p) s = (.ok i, s')) :
    ∃ ℓ', (s'.cache.buf i).data = t.store b ∧ ℓ'.inOp = ℓ.inOp ∧
      Cached E p { t with held := b :: t.held } s' ℓ' (update h b i) := by
  obtain ⟨inv', unlocked, same, data⟩ := c.inv.bread c.work strict returns
  rw [← c.view b home free] at inv' data
  refine ⟨ℓ.hold i ⟨b, .data (t.store b), false⟩, data, rfl, inv', c.extra, c.work, ?_, ?_,
    List.nodup_cons.mpr ⟨free, c.nodup⟩, c.mine, ?_⟩
  · intro b' hb'
    by_cases new : b' = b
    · subst new
      exact ⟨false, by rw [update_self, Local.hold_self], nofun⟩
    · obtain ⟨dty, held, dirty⟩ := c.held b' ((List.mem_cons.mp hb').resolve_left new)
      have other : h b' ≠ i := by
        rintro rfl
        rw [unlocked] at held
        cases held
      refine ⟨dty, ?_, dirty⟩
      rwa [update_of_ne new, Local.hold_of_ne _ _ other]
  · intro j x hx
    by_cases new : j = i
    · subst new
      rw [Local.hold_self] at hx
      cases hx
      exact ⟨List.mem_cons_self, update_self ..⟩
    · rw [Local.hold_of_ne _ _ new] at hx
      obtain ⟨mem, place⟩ := c.only j x hx
      refine ⟨List.mem_cons_of_mem b mem, ?_⟩
      have other : x.blockno ≠ b := fun same => free (same ▸ mem)
      rwa [update_of_ne other]
  · intro b' home' hb'
    rw [view_congr same]
    exact c.view b' home' fun mem => hb' (List.mem_cons_of_mem b mem)

theorem rehold (mem : b ∈ t.held) (u : FsState) (d : Block) (changed : Bool)
    (held : u.held = t.held) (new : u.store b = d) (store : ∀ b', b' ≠ b → u.store b' = t.store b')
    (dirty : changed = true → b ∈ u.dirty) (others : ∀ b' ∈ t.dirty, b' ≠ b → b' ∈ u.dirty) :
    (∀ b' ∈ u.held, ∃ dty, (ℓ.hold (h b) ⟨b, .data d, changed⟩).held (h b') =
      some ⟨b', .data (u.store b'), dty⟩ ∧ (dty = true → b' ∈ u.dirty)) ∧
    ∀ i x, (ℓ.hold (h b) ⟨b, .data d, changed⟩).held i = some x →
      x.blockno ∈ u.held ∧ h x.blockno = i := by
  obtain ⟨_, heldb, -⟩ := c.held b mem
  rw [held]
  refine ⟨fun b' hb' => ?_, fun i x hx => ?_⟩
  · by_cases same : b' = b
    · subst same
      exact ⟨changed, by rw [Local.hold_self, new], dirty⟩
    · obtain ⟨dty, held', dirty'⟩ := c.held b' hb'
      have other : h b' ≠ h b := by
        intro eq
        rw [eq, heldb] at held'
        cases held'
        exact same rfl
      rw [Local.hold_of_ne _ _ other, store b' same]
      exact ⟨dty, held', fun was => others b' (dirty' was) same⟩
  · by_cases same : i = h b
    · subst same
      rw [Local.hold_self] at hx
      cases hx
      exact ⟨mem, rfl⟩
    · rw [Local.hold_of_ne _ _ same] at hx
      exact c.only i x hx

theorem bset (inOp : ℓ.inOp = true) (mem : b ∈ t.held) {d : Block}
    (returns : (atomic (.setData (h b) d)).run (BState.exec p) s = (.ok (), s')) :
    ∃ ℓ', ℓ'.inOp = ℓ.inOp ∧ Cached E p
      { t with store := update t.store b d, dirty := b :: t.dirty } s' ℓ' h := by
  obtain ⟨dty, held, -⟩ := c.held b mem
  obtain ⟨ℓ', inv', rfl⟩ := c.inv.run (Q := fun _ ℓ' => ℓ' = ℓ.hold (h b) ⟨b, .data d, true⟩)
    (safe_setData inOp held (by exact rfl)) returns
  have ops : p ∈ s.ops := c.inv.local.inOp.2 inOp
  have blockno : (s.cache.buf (h b)).blockno = b := (c.inv.local.held _ _ held).2.1.2
  have log : s'.log = s.log ∧ s'.disk = s.disk ∧ s'.latest = update s.latest b d := by
    have step := congrArg Prod.snd returns
    simp only [Prog.run, BState.exec, if_pos ops, blockno] at step
    subst step
    exact ⟨rfl, rfl, rfl⟩
  obtain ⟨known, only⟩ := c.rehold mem
    { t with store := update t.store b d, dirty := b :: t.dirty } d true rfl
    (update_self ..) (fun b' other => update_of_ne other ..)
    (fun _ => List.mem_cons_self) fun b' hb' _ => List.mem_cons_of_mem b hb'
  refine ⟨_, by exact rfl, inv', c.extra, c.work, known, only, c.nodup, c.mine,
    fun b' home' hb' => ?_⟩
  have other : b' ≠ b := fun same => hb' (same ▸ mem)
  change update t.store b d b' = _
  rw [update_of_ne other, c.view b' home' hb', BState.view, BState.view, log.1, log.2.1,
    log.2.2, update_of_ne other]

theorem logWrite (inOp : ℓ.inOp = true) (mem : b ∈ t.held)
    (home : E.Home b) (returns : (Xv6.logWrite (h b)).run (BState.exec p) s = (.ok (), s')) :
    ∃ ℓ', ℓ'.inOp = ℓ.inOp ∧ Cached E p
      { t with dirty := t.dirty.filter (· ≠ b), logged := b :: t.logged } s' ℓ' h := by
  obtain ⟨dty, held, -⟩ := c.held b mem
  obtain ⟨ℓ', inv', rfl⟩ := c.inv.run (Q := fun _ ℓ' => ℓ' = ℓ.logs (h b) b (t.store b))
    (safe_logWrite inOp held home (by exact rfl)) returns
  have blockno : (s.cache.buf (h b)).blockno = b := (c.inv.local.held _ _ held).2.1.2
  have log : s'.disk = s.disk ∧ (∀ b', b' ≠ b → s'.latest b' = s.latest b') ∧
      ∀ b', b' ≠ b → (b' ∈ s'.log.lh.blocks ↔ b' ∈ s.log.lh.blocks) := by
    have step := returns
    simp only [Xv6.logWrite, Prog.run, BState.exec, blockno] at step
    cases hl : s.log.logWrite b with
    | error e =>
      rw [hl] at step
      cases step
    | ok r =>
      obtain ⟨new, l⟩ := r
      rw [hl] at step
      obtain ⟨-, -, lh, rfl, blocks⟩ := Log.logWrite_ok hl
      cases step
      refine ⟨rfl, fun b' other => update_of_ne other .., fun b' other => ?_⟩
      rcases blocks with ⟨-, -, append⟩ | ⟨-, -, same⟩
      · change b' ∈ lh.blocks ↔ _
        rw [append, List.mem_append, List.mem_singleton]
        simp [other]
      · change b' ∈ lh.blocks ↔ _
        rw [same]
  obtain ⟨known, only⟩ := c.rehold mem
    { t with dirty := t.dirty.filter (· ≠ b), logged := b :: t.logged } (t.store b) false rfl rfl
    (fun _ _ => rfl) (by rintro ⟨⟩) fun b' hb' other => List.mem_filter.mpr ⟨hb', by simpa using other⟩
  refine ⟨ℓ.logs (h b) b (t.store b), rfl, inv', c.extra, c.work, known, only, c.nodup, ?_,
    fun b' home' hb' => ?_⟩
  · exact fun b' hb' => (List.mem_cons.mp hb').elim (fun same => same ▸ List.mem_cons_self)
      fun old => List.mem_cons_of_mem b (c.mine b' old)
  · have other : b' ≠ b := fun same => hb' (same ▸ mem)
    rw [c.view b' home' hb', BState.view, BState.view, log.1, log.2.1 b' other]
    simp only [log.2.2 b' other]

theorem settled (strict : E.strict) (mem : b ∈ t.held)
    (kept : b ∈ t.dirty → b ∈ t.logged) : t.store b = s.view b := by
  obtain ⟨dty, held, dirty⟩ := c.held b mem
  obtain ⟨hi, caches, valid, data⟩ := c.inv.local.held _ _ held
  cases dty with
  | false =>
    rw [← data]
    refine c.inv.contents c.work strict hi caches valid fun x hx => ?_
    rw [held] at hx
    cases hx
    rfl
  | true =>
    have logged := (c.inv.local.mine b (c.mine b (kept (dirty rfl)))).2
    obtain ⟨j, hj, hc, -, latest⟩ := c.inv.state.pinned b (by rwa [c.inv.pins c.work])
    rw [BState.view, if_pos logged, ← latest, ← data, c.inv.state.wf.unique _ hi j hj b caches hc]

theorem brelse (strict : E.strict) (mem : b ∈ t.held) (kept : b ∈ t.dirty → b ∈ t.logged)
    (lost : List ℕ) (returns : (Xv6.brelse (h b)).run (BState.exec p) s = (.ok (), s')) :
    ∃ ℓ', ℓ'.inOp = ℓ.inOp ∧ Cached E p
      { t with held := t.held.erase b, dirty := t.dirty.filter (· ≠ b), lost := lost } s' ℓ' h := by
  obtain ⟨dty, held, dirty⟩ := c.held b mem
  obtain ⟨ℓ', inv', rfl⟩ := c.inv.run (Q := fun _ ℓ' => ℓ' = ℓ.unhold (h b))
    (safe_brelse held (fun _ changed => c.mine b (kept (dirty changed))) rfl) returns
  have same : s.SameDisk s' := by
    have run := sameDisk_of_caching (brelse_caching (h b)) p s
    rwa [returns] at run
  have member : ∀ b', b' ∈ t.held.erase b ↔ b' ≠ b ∧ b' ∈ t.held := fun b' => c.nodup.mem_erase_iff
  refine ⟨ℓ.unhold (h b), rfl, inv', c.extra, c.work, fun b' hb' => ?_, fun i x hx => ?_,
    c.nodup.erase b, c.mine, fun b' home' hb' => ?_⟩
  · obtain ⟨other, mem'⟩ := (member b').mp hb'
    obtain ⟨dty', held', dirty'⟩ := c.held b' mem'
    have apart : h b' ≠ h b := by
      intro eq
      rw [eq, held] at held'
      cases held'
      exact other rfl
    refine ⟨dty', by rwa [Local.unhold_of_ne _ apart], fun was => ?_⟩
    exact List.mem_filter.mpr ⟨dirty' was, by simpa using other⟩
  · by_cases gone : i = h b
    · subst gone
      rw [Local.unhold_self] at hx
      cases hx
    · rw [Local.unhold_of_ne _ gone] at hx
      obtain ⟨mem', place⟩ := c.only i x hx
      exact ⟨(member x.blockno).mpr ⟨fun eq => gone (by rw [← place, eq]), mem'⟩, place⟩
  · rw [view_congr same]
    by_cases this : b' = b
    · rw [this]
      exact c.settled strict mem kept
    · exact c.view b' home' fun mem' => hb' ((member b').mpr ⟨this, mem'⟩)

end

end Cached

/-! ## Simulation -/

theorem exec_lost {o : FsOp} {t t' : FsState} {r : FsSig.Res o}
    (step : FsState.exec o t = .ok (r, t')) (none : t'.lost = []) : t.lost = [] := by
  cases o with
  | bread b =>
    simp only [FsState.exec] at step
    split at step <;> cases step
    exact none
  | bset b d =>
    simp only [FsState.exec] at step
    split at step <;> cases step
    exact none
  | logWrite b =>
    simp only [FsState.exec] at step
    split at step <;> cases step
    exact none
  | brelse b =>
    simp only [FsState.exec] at step
    split at step <;> cases step
    dsimp only at none
    split at none
    · cases none
    · exact none
  | panic e => cases step

theorem run_lost {α : Type} (x : FsProg α) {t : FsState}
    (none : (x.run FsState.exec t).2.lost = []) : t.lost = [] := by
  induction x generalizing t with
  | ret a => exact none
  | op o k ih =>
    cases hs : FsState.exec o t with
    | error e =>
      rw [Prog.run_op_error _ hs] at none
      exact none
    | ok q =>
      rw [Prog.run_op_ok _ hs] at none
      exact exec_lost hs (ih q.1 none)

/-- A program that returns on the cache computes what it computes on the store, unless it loses a
change. -/
theorem Cached.run {α : Type} {x : FsProg α} {A : Panic → Prop} {I : FsState → Prop}
    {Q : α → FsState → Prop} {E : Env} (strict : E.strict) {p : ℕ} {t : FsState} {s s' : BState}
    {ℓ : Local} {h : ℕ → ℕ} {a : α} (c : Cached E p t s ℓ h) (proper : ¬ A .brelse)
    (total : x.Total FsState.exec A I t Q) (home : ∀ u, I u → ∀ b, b ∈ u.held ∨ b ∈ u.logged → E.Home b)
    (mode : ℓ.inOp = true ∨ ∀ u, I u → u.dirty = [] ∧ u.logged = [])
    (kept : (x.run FsState.exec t).2.lost = [])
    (returns : (onCache h x).run (BState.exec p) s = (.ok a, s')) :
    ∃ t' ℓ' h', x.run FsState.exec t = (.ok a, t') ∧ ℓ'.inOp = ℓ.inOp ∧ Cached E p t' s' ℓ' h' ∧
      Q a t' := by
  induction x generalizing t s ℓ h with
  | ret b =>
    cases returns
    exact ⟨t, ℓ, h, rfl, rfl, c, total.2⟩
  | op o k ih =>
    obtain ⟨-, outcome⟩ := total
    -- the rest of the program after an operation that the store performs
    have rest : ∀ {r : FsSig.Res o} {t₁ : FsState} {s₁ : BState} {ℓ₁ : Local} {h₁ : ℕ → ℕ},
        FsState.exec o t = .ok (r, t₁) → ℓ₁.inOp = ℓ.inOp → Cached E p t₁ s₁ ℓ₁ h₁ →
        (onCache h₁ (k r)).run (BState.exec p) s₁ = (.ok a, s') →
        ∃ t' ℓ' h', (Prog.op o k).run FsState.exec t = (.ok a, t') ∧ ℓ'.inOp = ℓ.inOp ∧
          Cached E p t' s' ℓ' h' ∧ Q a t' := by
      intro r t₁ s₁ ℓ₁ h₁ step same c₁ returns₁
      rw [step] at outcome
      rw [Prog.run_op_ok _ step] at kept ⊢
      obtain ⟨t', ℓ', h', run, same', c', post⟩ := ih r c₁ outcome (same ▸ mode) kept returns₁
      exact ⟨t', ℓ', h', run, same'.trans same, c', post⟩
    -- the state after the operation satisfies `I`
    have next : ∀ {r : FsSig.Res o} {t₁ : FsState}, FsState.exec o t = .ok (r, t₁) → I t₁ := by
      intro r t₁ step
      rw [step] at outcome
      exact outcome.here
    have nothing : ∀ {r : FsSig.Res o} {t₁ : FsState}, FsState.exec o t = .ok (r, t₁) →
        t₁.lost = [] := by
      intro r t₁ step
      rw [Prog.run_op_ok _ step] at kept
      exact run_lost _ kept
    cases o with
    | bread b =>
      by_cases locked : b ∈ t.held
      · simp only [FsState.exec, if_pos locked] at outcome
        exact outcome.elim
      have step : FsState.exec (.bread b) t = .ok (t.store b, { t with held := b :: t.held }) :=
        if_neg locked
      have homeb := home _ (next step) b (.inl List.mem_cons_self)
      obtain ⟨i, s₁, read, returns₁⟩ := (Prog.run_bind_eq_ok _).mp returns
      obtain ⟨ℓ₁, data, same, c₁⟩ := c.bread strict homeb locked read
      refine rest step same c₁ ?_
      rw [← data]
      exact returns₁
    | bset b d =>
      by_cases locked : b ∈ t.held
      swap
      · simp only [FsState.exec, if_neg locked] at outcome
        exact outcome.elim
      have step : FsState.exec (.bset b d) t =
          .ok ((), { t with store := update t.store b d, dirty := b :: t.dirty }) :=
        if_pos locked
      have inOp : ℓ.inOp = true := by
        refine mode.resolve_right fun reads => ?_
        cases (reads _ (next step)).1
      obtain ⟨⟨⟩, s₁, change, returns₁⟩ := (Prog.run_bind_eq_ok _).mp returns
      obtain ⟨ℓ₁, same, c₁⟩ := c.bset inOp locked change
      exact rest step same c₁ returns₁
    | logWrite b =>
      by_cases locked : b ∈ t.held
      swap
      · simp only [FsState.exec, if_neg locked] at outcome
        exact outcome.elim
      have step : FsState.exec (.logWrite b) t =
          .ok ((), { t with dirty := t.dirty.filter (· ≠ b), logged := b :: t.logged }) :=
        if_pos locked
      have inOp : ℓ.inOp = true := by
        refine mode.resolve_right fun reads => ?_
        cases (reads _ (next step)).2
      have homeb := home _ (next step) b (.inl locked)
      obtain ⟨⟨⟩, s₁, log, returns₁⟩ := (Prog.run_bind_eq_ok _).mp returns
      obtain ⟨ℓ₁, same, c₁⟩ := c.logWrite inOp locked homeb log
      exact rest step same c₁ returns₁
    | brelse b =>
      obtain ⟨⟨⟩, s₁, release, returns₁⟩ := (Prog.run_bind_eq_ok _).mp returns
      by_cases locked : b ∈ t.held
      swap
      · simp only [FsState.exec, if_neg locked] at outcome
        exact absurd outcome proper
      have step : FsState.exec (.brelse b) t = .ok ((), { t with
          held := t.held.erase b
          dirty := t.dirty.filter (· ≠ b)
          lost := if b ∈ t.dirty ∧ b ∉ t.logged then b :: t.lost else t.lost }) := if_pos locked
      have logged : b ∈ t.dirty → b ∈ t.logged := by
        intro dirty
        by_contra unlogged
        have none := nothing step
        rw [if_pos ⟨dirty, unlogged⟩] at none
        cases none
      obtain ⟨ℓ₁, same, c₁⟩ := c.brelse strict locked logged _ release
      exact rest step same c₁ returns₁
    | panic e => cases returns

end Xv6.Fs
