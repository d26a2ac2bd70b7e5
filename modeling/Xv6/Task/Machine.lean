import Xv6.Sys.Prog
import Xv6.Vm.Run

/-!
# Processes with their memory and files

The machine that `fork` and `exec` work on: the tables of the kernel, physical memory, and the fields of
every process that belong to its user program.
-/

namespace Xv6.Task

open Sys Vm

/-- The fields of a process that belong to its user program; a null pointer is page 0, and the name is
the string in its buffer. -/
structure Image where
  pid : BitVec 32
  trapframe : ℕ
  pagetable : ℕ
  sz : ℕ
  name : List Byte

def Image.blank : Image := ⟨0, 0, 0, 0, []⟩

/-- The kernel's tables, the memory, and the images of the processes. -/
structure Machine where
  kernel : KState
  mem : Mem
  image : ℕ → Image
  nextpid : BitVec 32

/-- The operations of `fork`, `exec` and `sbrk`. -/
inductive Op where
  | kernel (o : KOp)
  | mem (o : MemOp)
  | myproc
  | image (q : ℕ)
  | update (q : ℕ) (f : Image → Image)
  /-- `allocproc`: find an unused process and mark it as used. -/
  | findProc
  | allocpid

@[reducible] def Op.Res : Op → Type
  | kernel o => o.Res
  | mem o => o.Res
  | myproc => ℕ
  | image _ => Image
  | update .. => Unit
  | findProc => Option ℕ
  | allocpid => BitVec 32

abbrev TSig : Sig := ⟨Op, Op.Res⟩

abbrev TProg := Prog TSig

abbrev act (o : Op) : TProg o.Res := Prog.op o Prog.ret

def vm {α : Type} (x : MProg α) : TProg α := x.lift fun o => act (.mem o)

def sys {α : Type} (x : KProg α) : TProg α := x.lift fun o => act (.kernel o)

namespace Machine

/-- One operation of process `p`. -/
def exec (ram : Ram) (p : ℕ) : Handler TSig Machine Panic
  | .kernel o, m => (KState.exec p o m.kernel).map fun q => (q.1, { m with kernel := q.2 })
  | .mem o, m => (Mem.exec ram o m.mem).map fun q => (q.1, { m with mem := q.2 })
  | .myproc, m => .ok (p, m)
  | .image q, m => .ok (m.image q, m)
  | .update q f, m => .ok ((), { m with image := Function.update m.image q (f (m.image q)) })
  | .findProc, m =>
      match m.kernel.freeProc with
      | none => .ok (none, m)
      | some np => .ok (some np, { m with
          kernel := m.kernel.setProc np { m.kernel.procs np with state := .used } })
  | .allocpid, m => .ok (m.nextpid, { m with nextpid := m.nextpid + 1 })

end Machine

/-- Run alone by process `p`, the program returns with `Q` or panics in one of the ways `A`. -/
abbrev Ends {α : Type} (ram : Ram) (p : ℕ) (A : Panic → Prop) (x : TProg α) (m : Machine)
    (Q : α → Machine → Prop) : Prop :=
  x.Total (Machine.exec ram p) A (fun _ => True) m Q

section

variable {ram : Ram} {p : ℕ} {A : Panic → Prop} {m : Machine} {α : Type}

theorem ends_act {o : Op} {r : o.Res} {m' : Machine} {Q : o.Res → Machine → Prop}
    (step : Machine.exec ram p o m = .ok (r, m')) (done : Q r m') : Ends ram p A (act o) m Q :=
  .op trivial step ⟨trivial, done⟩

theorem ends_sys {x : KProg α} {k : KState} {Q : α → KState → Prop} (here : m.kernel = k)
    (total : x.Total (KState.exec p) A (fun _ => True) k Q) :
    Ends ram p A (sys x) m fun r m' => ∃ k', m' = { m with kernel := k' } ∧ Q r k' := by
  subst here
  induction x generalizing m with
  | ret a => exact ⟨trivial, m.kernel, rfl, total.2⟩
  | op o f ih =>
    obtain ⟨-, outcome⟩ := total
    refine ⟨trivial, ?_⟩
    rw [Machine.exec]
    cases done : KState.exec p o m.kernel with
    | ok q =>
      rw [done] at outcome
      exact ih q.1 (m := { m with kernel := q.2 }) outcome
    | error e =>
      rw [done] at outcome
      cases e with
      | blocked => exact outcome
      | panic e => exact outcome

theorem ends_vm {x : MProg α} {h : Heap Page} {Q : α → Heap Page → Prop}
    (follows : x.Follows (owned ram) p h Q) (owns : m.mem.Owns ram h) :
    Ends ram p A (vm x) m fun r m' => ∃ mem' h', m' = { m with mem := mem' } ∧ Q r h' ∧
      mem'.Owns ram h' ∧ m.mem.Keeps h mem' h' := by
  have may := may_of_owned (A := fun _ => False) follows
  clear follows
  induction x generalizing m h with
  | ret a => exact ⟨trivial, m.mem, h, rfl, may, owns, .refl⟩
  | op o f ih =>
    have step := exec_may owns may.1
    refine ⟨trivial, ?_⟩
    rw [Machine.exec]
    cases done : Mem.exec ram o m.mem with
    | error e =>
      rw [done] at step
      cases e with
      | blocked => exact step
      | panic e => exact step.elim
    | ok q =>
      rw [done] at step
      obtain ⟨h₁, next, owns₁, keeps₁⟩ := step
      refine (ih q.1 (m := { m with mem := q.2 }) owns₁ (may.2 q.1 h₁ next)).mono ?_
      rintro r _ ⟨mem', h', rfl, post, owns', keeps'⟩
      exact ⟨mem', h', rfl, post, owns', keeps₁.trans keeps'⟩

end

end Xv6.Task
