import Xv6.Lib.Crash
import Xv6.Vm.Walk

/-!
# Running programs on physical memory

A program that uses only pages that it owns runs to its end on every memory in which it owns them,
whatever the free list holds and whenever `kalloc` fails, and changes no page of anybody else.
-/

namespace Xv6.Vm

open Function List Mem Option

/-- The protocol of a process that uses only pages that it owns and may panic in the ways `A`. -/
def may (A : Panic → Prop) (ram : Ram) : Protocol MemSig (Heap Page) where
  Allowed p h o := match o with
    | .panic e => A e
    | o => (owned ram).Allowed p h o
  Next := (owned ram).Next

/-- The pages `h` of memory belong to the process, and no free page does. -/
structure Mem.Owns (ram : Ram) (m : Mem) (h : Heap Page) : Prop where
  agree : ∀ a x, h a = some x → m.page a = x
  nodup : m.freelist.Nodup
  free : ∀ a ∈ m.freelist, h a = none ∧ ram.first ≤ a ∧ a < ram.last
  within : Within ram h

/-- Between two moments at which the process owns `h` and `h'`, pages have moved only between it and
the free list, and no other page has changed. -/
structure Mem.Keeps (m : Mem) (h : Heap Page) (m' : Mem) (h' : Heap Page) : Prop where
  pages : ∀ a, (h' a ≠ none ∨ a ∈ m'.freelist) ↔ (h a ≠ none ∨ a ∈ m.freelist)
  others : ∀ a, h a = none → a ∉ m.freelist → m'.page a = m.page a

section

variable {A : Panic → Prop} {ram : Ram} {p : ℕ} {α : Type} {m m' m'' : Mem} {h h' h'' : Heap Page}
  {Q : α → Heap Page → Prop} {x : MProg α}

theorem may_of_owned (follows : x.Follows (owned ram) p h Q) : x.Follows (may A ram) p h Q := by
  induction x generalizing h with
  | ret a => exact follows
  | op o k ih =>
    refine ⟨?_, fun r h' next => ih r (follows.2 r h' next)⟩
    cases o with
    | panic => exact follows.1.elim
    | _ => exact follows.1

theorem may_panic {e : Panic} (allowed : A e) : (panic e : MProg α).Follows (may A ram) p h Q :=
  ⟨allowed, nofun⟩

theorem Mem.Keeps.refl : m.Keeps h m h := ⟨fun _ => Iff.rfl, fun _ _ _ => rfl⟩

theorem Mem.Keeps.trans (first : m.Keeps h m' h') (second : m'.Keeps h' m'' h'') :
    m.Keeps h m'' h'' where
  pages a := (second.pages a).trans (first.pages a)
  others a own free := by
    have both : ¬(h' a ≠ none ∨ a ∈ m'.freelist) := by
      rw [first.pages]
      rintro (other | other)
      · exact other own
      · exact free other
    rw [second.others a (not_not.mp fun own' => both (.inl own')) fun free' => both (.inr free')]
    exact first.others a own free

theorem Mem.Owns.set {pg : ℕ} (owns : m.Owns ram h) (own : h pg ≠ none) (x : Page) :
    (m.set pg x).Owns ram (update h pg (some x)) ∧
      m.Keeps h (m.set pg x) (update h pg (some x)) := by
  refine ⟨⟨fun a y hy => ?_, owns.nodup, fun a free => ?_, owns.within.update_of_own own _⟩,
    fun a => ?_, fun a other _ => ?_⟩
  · by_cases e : a = pg
    · subst e
      rw [update_self] at hy
      simp only [Mem.set, update_self]
      exact some.inj hy
    · rw [update_of_ne e] at hy
      simp only [Mem.set, update_of_ne e]
      exact owns.agree a y hy
  · have ne : a ≠ pg := by
      rintro rfl
      exact own (owns.free a free).1
    rw [update_of_ne ne]
    exact owns.free a free
  · by_cases e : a = pg
    · subst e
      rw [update_self]
      exact ⟨fun _ => .inl own, fun _ => .inl nofun⟩
    · rw [update_of_ne e]
      exact Iff.rfl
  · have ne : a ≠ pg := by
      rintro rfl
      exact own other
    exact update_of_ne ne _ _

theorem Mem.Owns.take {pg : ℕ} {rest : List ℕ} (owns : m.Owns ram h) (top : m.freelist = pg :: rest) :
    h pg = none ∧ (ram.first ≤ pg ∧ pg < ram.last) ∧
      ({ m.set pg (fill 5) with freelist := rest, oracle := m.oracle.tail } : Mem).Owns ram
        (update h pg (some (fill 5))) ∧
      m.Keeps h { m.set pg (fill 5) with freelist := rest, oracle := m.oracle.tail }
        (update h pg (some (fill 5))) := by
  have nodup := owns.nodup
  rw [top, nodup_cons] at nodup
  have free := owns.free pg (top ▸ mem_cons_self)
  refine ⟨free.1, free.2, ⟨fun a y hy => ?_, nodup.2, fun a there => ?_, owns.within.update free.2 _⟩,
    fun a => ?_, fun a _ there => ?_⟩
  · by_cases e : a = pg
    · subst e
      rw [update_self] at hy
      simp only [Mem.set, update_self]
      exact some.inj hy
    · rw [update_of_ne e] at hy
      simp only [Mem.set, update_of_ne e]
      exact owns.agree a y hy
  · have ne : a ≠ pg := by
      rintro rfl
      exact nodup.1 there
    rw [update_of_ne ne]
    exact owns.free a (top ▸ mem_cons_of_mem pg there)
  · rw [top]
    by_cases e : a = pg
    · subst e
      rw [update_self]
      exact ⟨fun _ => .inr mem_cons_self, fun _ => .inl nofun⟩
    · simp only [update_of_ne e, mem_cons, e, false_or]
  · have ne : a ≠ pg := by
      rintro rfl
      exact there (top ▸ mem_cons_self)
    simp only [Mem.set, update_of_ne ne]

theorem Mem.Owns.give {pg : ℕ} (owns : m.Owns ram h) (own : h pg ≠ none) :
    ({ m.set pg (fill 1) with freelist := pg :: m.freelist } : Mem).Owns ram
        (update h pg none) ∧
      m.Keeps h { m.set pg (fill 1) with freelist := pg :: m.freelist }
        (update h pg none) := by
  refine ⟨⟨fun a y hy => ?_, ?_, fun a there => ?_, owns.within.update_of_own own _⟩, fun a => ?_,
    fun a other _ => ?_⟩
  · have ne : a ≠ pg := by
      rintro rfl
      rw [update_self] at hy
      cases hy
    rw [update_of_ne ne] at hy
    simp only [Mem.set, update_of_ne ne]
    exact owns.agree a y hy
  · rw [nodup_cons]
    exact ⟨fun there => own (owns.free pg there).1, owns.nodup⟩
  · by_cases e : a = pg
    · subst e
      exact ⟨update_self .., owns.within a own⟩
    · rw [update_of_ne e]
      exact owns.free a (mem_of_ne_of_mem e there)
  · by_cases e : a = pg
    · subst e
      exact ⟨fun _ => .inl own, fun _ => .inr mem_cons_self⟩
    · simp only [update_of_ne e, mem_cons, e, false_or]
  · have ne : a ≠ pg := by
      rintro rfl
      exact own other
    simp only [Mem.set, update_of_ne ne]

theorem Mem.Keeps.taken {g : Heap Page} (keeps : m.Keeps h m' (g.join h)) (owns : m.Owns ram h)
    (owns' : m'.Owns ram (g.join h)) (apart : g.Apart h) :
    (∀ a, g a ≠ none → a ∈ m.freelist) ∧
      (∀ a, a ∈ m'.freelist ↔ a ∈ m.freelist ∧ g a = none) ∧
      ∀ a, a ∉ m.freelist → m'.page a = m.page a := by
  have taken (a : ℕ) (own : g a ≠ none) : a ∈ m.freelist := by
    refine ((keeps.pages a).mp (.inl fun none => own (Heap.join_eq_none.mp none).1)).resolve_left ?_
    exact not_not.mpr (apart.left own)
  refine ⟨taken, fun a => ⟨fun free => ?_, ?_⟩, fun a other => ?_⟩
  · obtain ⟨mine, old⟩ := Heap.join_eq_none.mp (owns'.free a free).1
    exact ⟨((keeps.pages a).mp (.inr free)).resolve_left (not_not.mpr old), mine⟩
  · rintro ⟨free, absent⟩
    refine ((keeps.pages a).mpr (.inr free)).resolve_left (not_not.mpr ?_)
    exact Heap.join_eq_none.mpr ⟨absent, (owns.free a free).1⟩
  · cases own : h a with
    | none => exact keeps.others a own other
    | some x =>
      have absent : g a = none := not_not.mp fun mine => other (taken a mine)
      rw [owns.agree a x own]
      exact owns'.agree a x (by rw [Heap.join_of_none absent, own])

/-- The outcome of a run: it returns with `Q`, or panics in one of the ways `A`. -/
def Ended (A : Panic → Prop) (ram : Ram) (m : Mem) (h : Heap Page) (Q : α → Heap Page → Prop) :
    Except (Halt Panic) α × Mem → Prop
  | (.ok r, m') => ∃ h', Q r h' ∧ m'.Owns ram h' ∧ m.Keeps h m' h'
  | (.error (.panic e), _) => A e
  | (.error .blocked, _) => False

theorem exec_may (owns : m.Owns ram h) {o : MemOp} (allowed : (may A ram).Allowed p h o) :
    match exec ram o m with
    | .ok (r, m') => ∃ h', (may A ram).Next p h o r h' ∧ m'.Owns ram h' ∧ m.Keeps h m' h'
    | .error (.panic e) => A e
    | .error .blocked => False := by
  cases o with
  | panic e => exact allowed
  | deeper => exact allowed
  | kalloc =>
    have unlucky : ∃ h', (may A ram).Next p h .kalloc none h' ∧
        ({ m with oracle := m.oracle.tail } : Mem).Owns ram h' ∧
        m.Keeps h { m with oracle := m.oracle.tail } h' :=
      ⟨h, rfl, ⟨owns.agree, owns.nodup, owns.free, owns.within⟩, fun _ => Iff.rfl, fun _ _ _ => rfl⟩
    cases hl : m.lucky with
    | false =>
      rw [exec, hl]
      exact unlucky
    | true =>
      cases top : m.freelist with
      | nil =>
        rw [top] at unlucky
        rw [exec, hl, top]
        exact unlucky
      | cons pg rest =>
        obtain ⟨free, inside, owns', keeps⟩ := owns.take top
        rw [exec, hl, top]
        exact ⟨_, ⟨free, inside, rfl⟩, owns', keeps⟩
  | kfree pg =>
    have inside := owns.within pg allowed
    rw [exec, if_neg (by omega)]
    exact ⟨_, rfl, owns.give allowed⟩
  | load pg i =>
    obtain ⟨x, hx⟩ := ne_none_iff_exists'.mp allowed
    exact ⟨h, ⟨rfl, x, hx, by rw [owns.agree pg x hx]⟩, owns, .refl⟩
  | read pg off n =>
    obtain ⟨x, hx⟩ := ne_none_iff_exists'.mp allowed
    exact ⟨h, ⟨rfl, x, hx, by rw [owns.agree pg x hx]⟩, owns, .refl⟩
  | store pg i v =>
    obtain ⟨x, hx⟩ := ne_none_iff_exists'.mp allowed
    exact ⟨_, ⟨x, hx, by rw [← owns.agree pg x hx]⟩, owns.set allowed _⟩
  | clear pg => exact ⟨_, rfl, owns.set allowed _⟩
  | write pg off bytes =>
    obtain ⟨x, hx⟩ := ne_none_iff_exists'.mp allowed
    exact ⟨_, ⟨x, hx, by rw [← owns.agree pg x hx]⟩, owns.set allowed _⟩

/-- A process that follows the protocol runs to its end on the pages that it owns. -/
theorem run_may (follows : x.Follows (may A ram) p h Q)
    (owns : m.Owns ram h) : Ended A ram m h Q (x.run (exec ram) m) := by
  induction x generalizing m h with
  | ret a => exact ⟨h, follows, owns, .refl⟩
  | op o k ih =>
    have step := exec_may owns follows.1
    rw [Prog.run]
    split at step
    next r m' done =>
      obtain ⟨h', next, owns', keeps⟩ := step
      have rest := ih r (follows.2 r h' next) owns'
      rw [done]
      show Ended A ram m h Q ((k r).run (exec ram) m')
      revert rest
      generalize (k r).run (exec ram) m' = out
      intro rest
      obtain ⟨(e | _) | a, m''⟩ := out
      · exact rest
      · exact rest
      · obtain ⟨h'', post, owns'', keeps'⟩ := rest
        exact ⟨h'', post, owns'', keeps.trans keeps'⟩
    next e done =>
      rw [done]
      exact step
    next => exact step.elim

theorem run_owned (follows : x.Follows (owned ram) p h Q)
    (owns : m.Owns ram h) : ∃ r m' h', x.run (exec ram) m = (.ok r, m') ∧ Q r h' ∧
      m'.Owns ram h' ∧ m.Keeps h m' h' := by
  have ended := run_may (may_of_owned (A := fun _ => False) follows) owns
  revert ended
  generalize x.run (exec ram) m = out
  intro ended
  match out, ended with
  | (.ok r, m'), ⟨h', post, owns', keeps⟩ => exact ⟨r, m', h', rfl, post, owns', keeps⟩

end

/-! ## Programs that only read -/

def MemOp.Reads : MemOp → Prop
  | .panic _ | .deeper | .load _ _ | .read _ _ _ => True
  | _ => False

theorem mem_reads {o : MemOp} (reads : o.Reads) : (mem o).Only MemOp.Reads :=
  ⟨reads, fun _ => trivial⟩

theorem run_reads (ram : Ram) {α : Type} {x : MProg α} (reads : x.Only MemOp.Reads) (m : Mem) :
    (x.run (exec ram) m).2 = m := by
  induction x with
  | ret a => rfl
  | op o k ih =>
    cases o with
    | panic | deeper => rfl
    | load | read => exact ih _ (reads.2 _)
    | kalloc | kfree | store | clear | write => exact reads.1.elim

theorem walkFrom_reads (va level pagetable : ℕ) :
    (walkFrom va false level pagetable).Only MemOp.Reads := by
  induction level generalizing pagetable with
  | zero => trivial
  | succ level ih =>
    refine (mem_reads (o := .load _ _) trivial).bind fun pte => ?_
    rw [if_neg Bool.false_ne_true]
    split_ifs
    · exact ih _
    · trivial

theorem walk_reads (pagetable va : ℕ) : (walk pagetable va false).Only MemOp.Reads := by
  rw [walk]
  split_ifs
  · exact ⟨trivial, by rintro ⟨⟩⟩
  · exact walkFrom_reads va 2 pagetable

theorem walkaddr_reads (pagetable va : ℕ) : (walkaddr pagetable va).Only MemOp.Reads := by
  rw [walkaddr]
  split_ifs
  · trivial
  · refine (walk_reads pagetable va).bind fun r => ?_
    match r with
    | none => trivial
    | some (pg, i) =>
      refine (mem_reads (o := .load pg i) trivial).bind fun pte => ?_
      split_ifs <;> trivial

end Xv6.Vm
