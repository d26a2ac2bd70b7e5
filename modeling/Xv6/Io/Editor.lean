import Xv6.Io.Console

/-!
# The line discipline of the console

A reference line editor, and readers that run beside it on the console.  What the readers get is what
the editor has committed, in order.
-/

namespace Xv6.Io

open Function List

open Proc (Cons INPUT_BUF_SIZE)

/-! ## The reference editor -/

/-- A line editor: the bytes committed so far, the bytes of the current line, and how many of the
committed bytes have been removed by readers. -/
structure Editor where
  committed : List Byte
  pending : List Byte
  removed : ℕ

namespace Editor

def Full (ed : Editor) : Prop :=
  ed.removed + INPUT_BUF_SIZE ≤ (ed.committed ++ ed.pending).length

instance (ed : Editor) : Decidable ed.Full := inferInstanceAs (Decidable (_ ≤ _))

def commit (ed : Editor) : Editor := { ed with committed := ed.committed ++ ed.pending, pending := [] }

/-- One byte is added to the current line, which is committed at its end or if the buffer is full. -/
def add (ed : Editor) (c : Byte) : Editor :=
  let ed := { ed with pending := ed.pending ++ [c] }
  if c = ch '\n' ∨ c = ctrl 'D' ∨ ed.Full then ed.commit else ed

def type (ed : Editor) (c : Byte) : Editor :=
  if c = ctrl 'P' ∨ c = 0 then ed
  else if c = ctrl 'U' then { ed with pending := [] }
  else if c = ctrl 'H' ∨ c = 0x7f then { ed with pending := ed.pending.dropLast }
  else if ed.Full then ed
  else ed.add (if c = ch '\r' then ch '\n' else c)

end Editor

/-! ## The console with its readers -/

/-- What readers see: a byte, or a result of 0 bytes for a call that asked for some. -/
inductive Event where
  | byte (c : Byte)
  | zero

/-- The console, the sleeping readers with the bytes they have asked for and still want, the reference
editor, and what readers have got so far. -/
structure Terminal where
  cons : Cons
  reader : ℕ → Option (ℕ × ℕ)
  editor : Editor
  log : List Event

/-- A character is typed, process `p` calls `consoleread`, or process `p` wakes up; `killed` is what it
finds if it has to wait. -/
inductive Action where
  | intr (c : Byte)
  | read (p : ℕ) (n : BitVec 32) (killed : Bool)
  | wake (p : ℕ) (killed : Bool)

namespace Terminal

/-- After a stretch of a call of process `p` for `target` bytes. -/
def after (s : Terminal) (p target : ℕ) (x : Stretch) : Terminal where
  cons := x.cons
  reader := update s.reader p (if x.ret = none then some (target, x.left) else none)
  editor := { s.editor with removed := s.editor.removed + x.taken.length }
  log := s.log ++ (x.stored.map .byte ++ if x.ret = some 0 ∧ 0 < target then [.zero] else [])

def step (s : Terminal) : Action → Terminal
  | .intr c => { s with cons := consoleintr c s.cons, editor := s.editor.type c }
  | .read p n killed =>
      if s.reader p = none then
        s.after p n.toInt.toNat (readStart (fun _ => true) killed n s.cons)
      else s
  | .wake p killed =>
      match s.reader p with
      | none => s
      | some (target, n) => s.after p target (readLoop (fun _ => true) killed target n s.cons [] [])

def init : Terminal := ⟨⟨fun _ => 0, 0, 0, 0⟩, fun _ => none, ⟨[], [], 0⟩, []⟩

/-- The terminal after a list of actions. -/
def run (actions : List Action) : Terminal := actions.foldl step init

/-- The data bytes that the reads have received. -/
def delivered (s : Terminal) : List Byte :=
  s.log.filterMap fun
    | .byte c => some c
    | .zero => none

end Terminal

theorem consoleintr_eq (c : Byte) (s : Cons) :
    consoleintr c s =
      if c = ctrl 'P' then s
      else if c = ctrl 'U' then s.killLine (s.e - s.w).toNat
      else if c = ctrl 'H' ∨ c = 0x7f then if s.e ≠ s.w then { s with e := s.e - 1 } else s
      else if c ≠ 0 ∧ s.e - s.r < BitVec.ofNat 32 INPUT_BUF_SIZE then
        (s.append (if c = ch '\r' then ch '\n' else c)).2
      else s := by
  rw [consoleintr, Cons.intr, show ctrl 'P' = 16 from rfl, show ctrl 'U' = 21 from rfl,
    show ctrl 'H' = 8 from rfl, show ch '\r' = 13 from rfl, show ch '\n' = 10 from rfl]
  simp only [apply_ite Prod.snd]

/-! ## The console holds what the editor has -/

/-- The buffer holds the bytes that the editor has committed and those of the current line, from those
on that have not been taken. -/
structure Tracks (s : Cons) (committed pending taken : List Byte) : Prop where
  ring : RingOk INPUT_BUF_SIZE s.buf s.r s.e (committed ++ pending) taken
  write : s.w = BitVec.ofNat 32 committed.length
  fifo : taken <+: committed

namespace Tracks

variable {s : Cons} {committed pending taken : List Byte} {c : Byte}

theorem pending_le (tracks : Tracks s committed pending taken) : pending.length ≤ INPUT_BUF_SIZE := by
  have bound := tracks.ring.bound
  have := tracks.fifo.length_le
  rw [length_append] at bound
  omega

theorem toNat_sub (tracks : Tracks s committed pending taken) : (s.e - s.w).toNat = pending.length := by
  have small : pending.length < 2 ^ 32 := lt_of_le_of_lt tracks.pending_le (by decide)
  rw [tracks.ring.write, tracks.write, length_append, BitVec.ofNat_add, BitVec.add_comm,
    BitVec.add_sub_cancel, BitVec.toNat_ofNat, Nat.mod_eq_of_lt small]

theorem e_eq_w_iff (tracks : Tracks s committed pending taken) : s.e = s.w ↔ pending = [] := by
  have size := tracks.toNat_sub
  constructor
  · intro same
    rw [same, BitVec.sub_self] at size
    exact length_eq_zero_iff.mp size.symm
  · rintro rfl
    rw [length_nil] at size
    bv_omega

theorem erase (tracks : Tracks s committed (pending ++ [c]) taken) :
    Tracks { s with e := s.e - 1 } committed pending taken := by
  have ring := tracks.ring
  rw [← append_assoc] at ring
  refine ⟨ring.retract ?_, tracks.write, tracks.fifo⟩
  rw [length_append]
  exact Nat.le_add_right_of_le tracks.fifo.length_le

theorem last (tracks : Tracks s committed (pending ++ [c]) taken) : cell s (s.e - 1) = c := by
  have ring := tracks.ring
  rw [← append_assoc] at ring
  refine ring.back (by decide) ?_
  rw [length_append]
  exact Nat.le_add_right_of_le tracks.fifo.length_le

section

variable (tracks : Tracks s committed pending taken)
include tracks

theorem kill (line : ∀ c ∈ pending, c ≠ ch '\n') :
    Tracks (s.killLine pending.length) committed [] taken := by
  induction pending using List.reverseRecOn generalizing s with
  | nil => exact tracks
  | append_singleton pending c ih =>
    have ne : s.e ≠ s.w := by
      rw [Ne, tracks.e_eq_w_iff]
      simp
    have data : s.buf ((s.e - 1).toNat % INPUT_BUF_SIZE) ≠ 10 := by
      have last : s.buf ((s.e - 1).toNat % INPUT_BUF_SIZE) = c := tracks.last
      rw [last]
      exact line c (by simp)
    rw [length_append, length_singleton, Cons.killLine, if_pos ⟨ne, data⟩]
    exact ih tracks.erase fun d hd => line d (mem_append_left _ hd)

theorem room_iff :
    s.e - s.r < BitVec.ofNat 32 INPUT_BUF_SIZE ↔
      (committed ++ pending).length < taken.length + INPUT_BUF_SIZE := by
  have := tracks.ring.fifo.length_le
  rw [BitVec.lt_def, tracks.ring.toNat_sub (by decide)]
  simp only [BitVec.toNat_ofNat, INPUT_BUF_SIZE]
  omega

theorem full_iff :
    s.e - s.r = BitVec.ofNat 32 INPUT_BUF_SIZE ↔
      taken.length + INPUT_BUF_SIZE ≤ (committed ++ pending).length := by
  have size := tracks.ring.toNat_sub (by decide)
  have := tracks.ring.bound
  have := tracks.ring.fifo.length_le
  rw [← BitVec.toNat_inj, size]
  simp only [BitVec.toNat_ofNat, INPUT_BUF_SIZE] at *
  omega

theorem store (c : Byte) (room : (committed ++ pending).length < taken.length + INPUT_BUF_SIZE) :
    Tracks ⟨update s.buf (s.e.toNat % INPUT_BUF_SIZE) c, s.r, s.w, s.e + 1⟩
      committed (pending ++ [c]) taken := by
  refine ⟨?_, tracks.write, tracks.fifo⟩
  rw [← append_assoc]
  exact tracks.ring.store (by decide) room c

theorem commit : Tracks { s with w := s.e } (committed ++ pending) [] taken := by
  refine ⟨?_, tracks.ring.write, tracks.fifo.trans (prefix_append ..)⟩
  rw [append_nil]
  exact tracks.ring

theorem take (some : s.r ≠ s.w) :
    Tracks { s with r := s.r + 1 } committed pending (taken ++ [cell s s.r]) := by
  have lt : taken.length < committed.length := by
    refine lt_of_le_of_ne tracks.fifo.length_le fun same => some ?_
    rw [tracks.ring.read, tracks.write, same]
  have ring := tracks.ring.take (by decide) (by rw [length_append]; omega)
  refine ⟨ring, tracks.write, ?_⟩
  refine prefix_of_prefix_length_le ring.fifo (prefix_append ..) ?_
  rw [length_append, length_singleton]
  exact lt

end

end Tracks

/-- The state of the console and of the editor, when readers have taken `taken`. -/
structure Agrees (s : Cons) (ed : Editor) (taken : List Byte) : Prop where
  tracks : Tracks s ed.committed ed.pending taken
  removed : ed.removed = taken.length
  line : ∀ c ∈ ed.pending, c ≠ ch '\n'
  full : ed.Full → ed.pending = []

namespace Agrees

variable {s : Cons} {ed : Editor} {taken : List Byte}

theorem not_full_iff (agrees : Agrees s ed taken) :
    s.e - s.r < BitVec.ofNat 32 INPUT_BUF_SIZE ↔ ¬ ed.Full := by
  rw [agrees.tracks.room_iff, Editor.Full, agrees.removed, not_le]

theorem add (agrees : Agrees s ed taken) (room : ¬ ed.Full) (c : Byte) :
    Agrees (s.append c).2 (ed.add c) taken := by
  have stored := agrees.tracks.store c (by
    rw [Editor.Full, agrees.removed, not_le] at room
    exact room)
  have full : s.e + 1 - s.r = BitVec.ofNat 32 INPUT_BUF_SIZE ↔
      Editor.Full { ed with pending := ed.pending ++ [c] } := by
    rw [Editor.Full, agrees.removed]
    exact stored.full_iff
  rw [Editor.add, Cons.append]
  simp only [full]
  by_cases ends : c = ch '\n' ∨ c = ctrl 'D' ∨ Editor.Full { ed with pending := ed.pending ++ [c] }
  · have ends' : c = 10 ∨ c = 4 ∨ Editor.Full { ed with pending := ed.pending ++ [c] } := ends
    rw [if_pos ends, if_pos ends']
    exact ⟨stored.commit, agrees.removed, fun _ none => absurd none not_mem_nil, fun _ => rfl⟩
  · have ends' : ¬(c = 10 ∨ c = 4 ∨ Editor.Full { ed with pending := ed.pending ++ [c] }) := ends
    rw [if_neg ends, if_neg ends']
    refine ⟨stored, agrees.removed, fun d hd => ?_, fun isFull => absurd (.inr (.inr isFull)) ends⟩
    rcases mem_append.mp hd with old | new
    · exact agrees.line d old
    · rw [mem_singleton.mp new]
      exact fun newline => ends (.inl newline)

theorem intr (agrees : Agrees s ed taken) (c : Byte) : Agrees (consoleintr c s) (ed.type c) taken := by
  have shorter {pending : List Byte} (sub : pending ⊆ ed.pending)
      (le : pending.length ≤ ed.pending.length) {s' : Cons}
      (tracks : Tracks s' ed.committed pending taken) :
      Agrees s' { ed with pending := pending } taken := by
    refine ⟨tracks, agrees.removed, fun d hd => agrees.line d (sub hd), fun isFull => ?_⟩
    simp only [Editor.Full, length_append] at isFull
    have none := agrees.full (by rw [Editor.Full, length_append]; omega)
    rw [none] at sub
    exact subset_nil.mp sub
  rw [consoleintr_eq, Editor.type]
  by_cases dump : c = ctrl 'P'
  · rw [if_pos dump, if_pos (.inl dump)]
    exact agrees
  rw [if_neg dump]
  by_cases kill : c = ctrl 'U'
  · rw [if_pos kill, if_neg (by rw [kill]; decide), if_pos kill, agrees.tracks.toNat_sub]
    exact shorter (nil_subset _) (Nat.zero_le _) (agrees.tracks.kill agrees.line)
  rw [if_neg kill]
  by_cases erase : c = ctrl 'H' ∨ c = 0x7f
  · have visible : ¬(c = ctrl 'P' ∨ c = 0) := by
      rcases erase with rfl | rfl <;> decide
    rw [if_pos erase, if_neg visible, if_neg kill, if_pos erase]
    have tracks := agrees.tracks
    refine shorter (dropLast_subset _) (by simp) ?_
    rcases eq_nil_or_concat ed.pending with none | ⟨pending, d, last⟩
    · rw [if_neg (not_not.mpr (tracks.e_eq_w_iff.mpr none)), none]
      rwa [none] at tracks
    · rw [concat_eq_append] at last
      have ne : s.e ≠ s.w := fun same => by
        rw [tracks.e_eq_w_iff, last] at same
        exact concat_ne_nil _ _ same
      rw [if_pos ne, last, dropLast_concat]
      rw [last] at tracks
      exact tracks.erase
  rw [if_neg erase]
  by_cases nul : c = 0
  · rw [if_neg (by tauto), if_pos (.inr nul)]
    exact agrees
  rw [if_neg (by tauto : ¬(c = ctrl 'P' ∨ c = 0)), if_neg kill, if_neg erase]
  by_cases isFull : ed.Full
  · rw [if_pos isFull, if_neg (by rw [agrees.not_full_iff]; tauto)]
    exact agrees
  · rw [if_neg isFull, if_pos ⟨nul, agrees.not_full_iff.mpr isFull⟩]
    exact agrees.add isFull _

theorem take (agrees : Agrees s ed taken) {s' : Cons} {new : List Byte}
    (tracks : Tracks s' ed.committed ed.pending (taken ++ new)) :
    Agrees s' { ed with removed := ed.removed + new.length } (taken ++ new) := by
  refine ⟨tracks, by rw [length_append, ← agrees.removed], agrees.line, fun isFull => ?_⟩
  refine agrees.full ?_
  simp only [Editor.Full] at isFull ⊢
  omega

end Agrees

/-! ## Readers -/

/-- What a reader takes a byte for. -/
def Event.of (c : Byte) : Event := if c = ctrl 'D' then .zero else .byte c

theorem Event.of_data {c : Byte} (data : c ≠ ctrl 'D') : Event.of c = .byte c := if_neg data

/-- What readers see at the end of a stretch of a call for `target` bytes. -/
def zeroEvent (target : ℕ) (ret : Option ℤ) : List Event :=
  if ret = some 0 ∧ 0 < target then [.zero] else []

theorem zeroEvent_of_ne {target : ℕ} {ret : Option ℤ} (ne : ret ≠ some 0) :
    zeroEvent target ret = [] := if_neg fun both => ne both.1

/-- A stretch of a reader takes committed bytes; it stores those that are not an end of file, and it
returns 0 exactly if it takes an end of file. -/
theorem readLoop_tracks {committed pending : List Byte} (killed : Bool) {target : ℕ} (n : ℕ)
    (s : Cons) {all taken stored : List Byte} (wanted : n ≤ target)
    (tracks : Tracks s committed pending all) :
    let x := readLoop (fun _ => true) killed target n s taken stored
    ∃ new got, x.taken = taken ++ new ∧ x.stored = stored ++ got ∧
      Tracks x.cons committed pending (all ++ new) ∧
      new.map Event.of = got.map .byte ++ zeroEvent target x.ret ∧
      (x.ret = none → 0 < x.left ∧ x.left ≤ target) := by
  have nothing {s : Cons} {all taken stored : List Byte}
      (tracks : Tracks s committed pending all) {ret : Option ℤ} {left : ℕ}
      (quiet : zeroEvent target ret = []) (waits : ret = none → 0 < left ∧ left ≤ target) :
      let x : Stretch := ⟨s, taken, stored, ret, left⟩
      ∃ new got, x.taken = taken ++ new ∧ x.stored = stored ++ got ∧
        Tracks x.cons committed pending (all ++ new) ∧
        new.map Event.of = got.map .byte ++ zeroEvent target x.ret ∧
        (x.ret = none → 0 < x.left ∧ x.left ≤ target) := by
    refine ⟨[], [], (append_nil _).symm, (append_nil _).symm, ?_, ?_, waits⟩
    · rwa [append_nil]
    · rw [quiet]
      rfl
  induction n generalizing s all taken stored with
  | zero =>
    refine nothing tracks ?_ nofun
    rw [zeroEvent, if_neg]
    rintro ⟨zero, pos⟩
    have := Option.some.inj zero
    omega
  | succ n ih =>
    by_cases empty : s.r = s.w
    · rw [readLoop_wait empty]
      refine nothing tracks (zeroEvent_of_ne ?_) fun _ => ⟨Nat.succ_pos n, wanted⟩
      cases killed <;> simp
    by_cases eof : cell s s.r = ctrl 'D'
    · rw [readLoop_eof empty eof]
      by_cases begun : n + 1 < target
      · rw [if_pos begun]
        refine nothing tracks (zeroEvent_of_ne fun zero => ?_) nofun
        have := Option.some.inj zero
        omega
      · rw [if_neg begun]
        have took := tracks.take empty
        rw [eof] at took
        refine ⟨[ctrl 'D'], [], rfl, (append_nil _).symm, took, ?_, nofun⟩
        have first : some ((target : ℤ) - (n + 1)) = some 0 := congrArg some (by omega)
        rw [first, zeroEvent, if_pos ⟨rfl, by omega⟩]
        rfl
    have took := tracks.take empty
    rw [readLoop_byte empty eof rfl]
    by_cases newline : cell s s.r = ch '\n'
    · rw [if_pos newline]
      refine ⟨[cell s s.r], [cell s s.r], rfl, rfl, took, ?_, nofun⟩
      rw [zeroEvent_of_ne fun zero => ?_, map_singleton, Event.of_data eof]
      · rfl
      · have := Option.some.inj zero
        omega
    · rw [if_neg newline]
      obtain ⟨new, got, takes, stores, tracks', events, waits⟩ :=
        ih { s with r := s.r + 1 } (Nat.le_of_succ_le wanted) took
      refine ⟨cell s s.r :: new, cell s s.r :: got, ?_, ?_, ?_, ?_, waits⟩
      · rw [takes, append_assoc]
        rfl
      · rw [stores, append_assoc]
        rfl
      · rwa [append_assoc] at tracks'
      · rw [map_cons, events, Event.of_data eof]
        rfl

theorem readLoop_stretch {committed pending all : List Byte} (killed : Bool) {target n : ℕ}
    {s : Cons} (wanted : n ≤ target) (tracks : Tracks s committed pending all) :
    let x := readLoop (fun _ => true) killed target n s [] []
    Tracks x.cons committed pending (all ++ x.taken) ∧
      x.taken.map Event.of = x.stored.map .byte ++ zeroEvent target x.ret ∧
      (x.ret = none → 0 < x.left ∧ x.left ≤ target) := by
  obtain ⟨new, got, takes, stores, rest⟩ := readLoop_tracks killed n s wanted tracks
  dsimp only
  rw [takes, stores]
  exact rest

/-! ## Erasing -/

theorem killLine_edits (k : ℕ) (s : Cons) : ∃ e, s.killLine k = { s with e := e } := by
  induction k generalizing s with
  | zero => exact ⟨s.e, rfl⟩
  | succ k ih =>
    rw [Cons.killLine]
    split_ifs
    · exact ih { s with e := s.e - 1 }
    · exact ⟨s.e, rfl⟩

theorem consoleintr_edits {c : Byte} (edit : c = ctrl 'U' ∨ c = ctrl 'H' ∨ c = 0x7f) (s : Cons) :
    ∃ e, consoleintr c s = { s with e := e } := by
  have visible : c ≠ ctrl 'P' := by
    rcases edit with rfl | rfl | rfl <;> decide
  rw [consoleintr_eq, if_neg visible]
  by_cases kill : c = ctrl 'U'
  · rw [if_pos kill]
    exact killLine_edits _ s
  · rw [if_neg kill, if_pos (edit.resolve_left kill)]
    split_ifs
    · exact ⟨s.e - 1, rfl⟩
    · exact ⟨s.e, rfl⟩

theorem Tracks.unread {s : Cons} {committed pending taken : List Byte}
    (tracks : Tracks s committed pending taken) : unread s = committed.drop taken.length := by
  have cells := tracks.ring.cells_eq (by decide) (by decide) tracks.fifo.length_le
    (by rw [length_append]; exact Nat.le_add_right _ _)
  rw [Io.unread, tracks.write, cells, take_left]

/-! ## Every run -/

namespace Terminal

variable {taken : List Byte}

/-- What holds in every state: readers have taken `taken`. -/
structure Inv (s : Terminal) (taken : List Byte) : Prop where
  agrees : Agrees s.cons s.editor taken
  log : s.log = taken.map Event.of
  reader : ∀ p target n, s.reader p = some (target, n) → 0 < n ∧ n ≤ target

theorem Inv.after {s : Terminal} (inv : s.Inv taken) (p : ℕ) {target : ℕ}
    {x : Stretch} (stretch : Tracks x.cons s.editor.committed s.editor.pending (taken ++ x.taken) ∧
      x.taken.map Event.of = x.stored.map .byte ++ zeroEvent target x.ret ∧
      (x.ret = none → 0 < x.left ∧ x.left ≤ target)) :
    (s.after p target x).Inv (taken ++ x.taken) := by
  obtain ⟨tracks, events, waits⟩ := stretch
  refine ⟨inv.agrees.take tracks, ?_, fun q target' n asleep => ?_⟩
  · rw [Terminal.after, inv.log, map_append, events]
    rfl
  · simp only [Terminal.after] at asleep
    by_cases mine : q = p
    · subst mine
      rw [update_self] at asleep
      split_ifs at asleep with waiting
      cases asleep
      exact waits waiting
    · rw [update_of_ne mine] at asleep
      exact inv.reader q target' n asleep

theorem Inv.step {s : Terminal} (inv : s.Inv taken) (a : Action) : ∃ taken', (s.step a).Inv taken' := by
  have tracks := inv.agrees.tracks
  cases a with
  | intr c => exact ⟨taken, inv.agrees.intr c, inv.log, inv.reader⟩
  | read p n killed =>
    rw [Terminal.step]
    split_ifs with idle
    · refine ⟨_, inv.after p ?_⟩
      rw [readStart]
      split_ifs with pos
      · have same : n.toInt.toNat = n.toNat := by
          rw [BitVec.toInt_eq_toNat_cond] at pos ⊢
          split_ifs at pos ⊢ <;> omega
        rw [same]
        exact readLoop_stretch killed (le_refl _) tracks
      · rw [append_nil]
        refine ⟨tracks, ?_, nofun⟩
        rw [zeroEvent, if_neg (by omega)]
        rfl
    · exact ⟨taken, inv⟩
  | wake p killed =>
    rw [Terminal.step]
    split
    · exact ⟨taken, inv⟩
    · next target n asleep =>
      exact ⟨_, inv.after p (readLoop_stretch killed (inv.reader p target n asleep).2 tracks)⟩

theorem Inv.init : Terminal.init.Inv [] where
  agrees := ⟨⟨RingOk.empty _ _, rfl, prefix_rfl⟩, rfl, fun _ none => absurd none not_mem_nil,
    fun _ => rfl⟩
  log := rfl
  reader _ _ _ asleep := absurd asleep nofun

theorem inv_run (actions : List Action) : ∃ taken, (run actions).Inv taken := by
  induction actions using List.reverseRecOn with
  | nil => exact ⟨[], .init⟩
  | append_singleton actions a ih =>
    obtain ⟨taken, inv⟩ := ih
    rw [run, foldl_append]
    exact inv.step a

theorem Inv.delivered {s : Terminal} (inv : s.Inv taken) : s.delivered = dropEof taken := by
  rw [Terminal.delivered, inv.log]
  clear inv
  induction taken with
  | nil => rfl
  | cons c taken ih =>
    by_cases eof : c = ctrl 'D'
    · rw [map_cons, Event.of, if_pos eof, dropEof, filter_cons_of_neg (by simpa using eof),
        filterMap_cons_none rfl]
      exact ih
    · rw [map_cons, Event.of, if_neg eof, dropEof, filter_cons_of_pos (by simpa using eof),
        filterMap_cons]
      exact congrArg _ ih

/-- The indices are in order, erasing leaves the committed bytes alone, and readers see the bytes that
the reference editor has committed, in order, each end of file as one result of 0 bytes. -/
theorem console_line_discipline (actions : List Action) :
    ((run actions).cons.w - (run actions).cons.r).toNat ≤
        ((run actions).cons.e - (run actions).cons.r).toNat ∧
      ((run actions).cons.e - (run actions).cons.r).toNat ≤ INPUT_BUF_SIZE ∧
      (((run actions).cons.e - (run actions).cons.r).toNat = INPUT_BUF_SIZE →
        (run actions).cons.w = (run actions).cons.e) ∧
      (∀ c, c = ctrl 'U' ∨ c = ctrl 'H' ∨ c = 0x7f →
        unread (consoleintr c (run actions).cons) = unread (run actions).cons) ∧
      (run actions).delivered <+: dropEof (run actions).editor.committed ∧
      ∃ taken, taken <+: (run actions).editor.committed ∧ (run actions).log = taken.map Event.of ∧
        unread (run actions).cons = (run actions).editor.committed.drop taken.length := by
  obtain ⟨taken, inv⟩ := inv_run actions
  have tracks := inv.agrees.tracks
  have edit := tracks.ring.toNat_sub (by decide)
  have write := congrArg length tracks.unread
  have bound := tracks.ring.bound
  rw [length_append] at edit bound
  rw [unread, length_ringCells, length_drop] at write
  refine ⟨by omega, by omega, fun full => ?_, fun c edits => ?_, ?_, taken, tracks.fifo, inv.log,
    tracks.unread⟩
  · have none := inv.agrees.full (by
      rw [Editor.Full, inv.agrees.removed, length_append]
      simp only [INPUT_BUF_SIZE] at full ⊢
      omega)
    exact (tracks.e_eq_w_iff.mpr none).symm
  · obtain ⟨e, same⟩ := consoleintr_edits edits (run actions).cons
    rw [same]
    rfl
  · rw [inv.delivered]
    exact tracks.fifo.filter _

end Terminal

end Xv6.Io
