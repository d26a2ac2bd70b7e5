import Xv6.Task.Prog
import Xv6.Vm.Copy

/-!
# The arguments of a program

The layout of the stack page that `exec` builds: the argument strings from the top of the page down,
each at a multiple of 16, and below them the array of pointers to them.
-/

namespace Xv6.Task

open Sys Vm List Table

variable {argv : List (List Byte)}

/-! ## The layout -/

def round16 (n : ℕ) : ℕ := (n + 15) / 16 * 16

def stringSpace (argv : List (List Byte)) : ℕ :=
  (argv.map fun arg => round16 (arg.length + 1)).sum

/-- The bytes that the strings and the array of pointers take. -/
def argSpace (argv : List (List Byte)) : ℕ :=
  stringSpace argv + round16 (8 * (argv.length + 1))

def stringPlaces (sp : ℕ) : List (List Byte) → List ℕ
  | [] => []
  | arg :: argv =>
      (sp - round16 (arg.length + 1)) :: stringPlaces (sp - round16 (arg.length + 1)) argv

def StringAt (t : Table) (arg : List Byte) (ptr : ℕ) : Prop :=
  ∀ k ≤ arg.length, t.byte (ptr + k) = (arg ++ [0]).getD k 0

theorem push_eq {sp n : ℕ} (aligned : sp % 16 = 0) (le : n ≤ sp) (small : sp < 2 ^ 64) :
    push sp n = sp - round16 n := by
  have no_wrap : (sp + 2 ^ 64 - n) % 2 ^ 64 = sp - n := by omega
  simp only [push, round16, no_wrap]
  omega

theorem stringSpace_cons (arg : List Byte) (argv : List (List Byte)) :
    stringSpace (arg :: argv) = round16 (arg.length + 1) + stringSpace argv := by
  rw [stringSpace, map_cons, sum_cons, stringSpace]

theorem stringSpace_mod (argv : List (List Byte)) : stringSpace argv % 16 = 0 := by
  induction argv with
  | nil => rfl
  | cons arg argv ih =>
    rw [stringSpace_cons, round16]
    omega

theorem stringPlaces_length (sp : ℕ) (argv : List (List Byte)) :
    (stringPlaces sp argv).length = argv.length := by
  induction argv generalizing sp with
  | nil => rfl
  | cons arg argv ih => rw [stringPlaces, length_cons, length_cons, ih]

theorem stringPlaces_le {sp w : ℕ} (mem : w ∈ stringPlaces sp argv) : w ≤ sp := by
  induction argv generalizing sp with
  | nil => exact absurd mem not_mem_nil
  | cons arg argv ih =>
    rcases mem_cons.mp mem with rfl | mem
    · exact Nat.sub_le ..
    · exact le_trans (ih mem) (Nat.sub_le ..)

theorem stringPlaces_inside {sp : ℕ} (fits : stringSpace argv ≤ sp)
    {x : List Byte × ℕ} (mem : x ∈ argv.zip (stringPlaces sp argv)) :
    sp - stringSpace argv ≤ x.2 ∧ x.2 + x.1.length + 1 ≤ sp := by
  induction argv generalizing sp with
  | nil => exact absurd mem not_mem_nil
  | cons arg argv ih =>
    rw [stringSpace_cons] at fits ⊢
    have size : arg.length + 1 ≤ round16 (arg.length + 1) := by
      rw [round16]
      omega
    rw [stringPlaces, zip_cons_cons, mem_cons] at mem
    rcases mem with rfl | mem
    · dsimp only
      omega
    · have := ih (by omega) mem
      omega

theorem stringPlaces_apart {sp : ℕ} (fits : stringSpace argv ≤ sp) :
    (argv.zip (stringPlaces sp argv)).Pairwise fun x y => y.2 + y.1.length + 1 ≤ x.2 := by
  induction argv generalizing sp with
  | nil => exact List.Pairwise.nil
  | cons arg argv ih =>
    rw [stringSpace_cons] at fits
    rw [stringPlaces, zip_cons_cons, pairwise_cons]
    exact ⟨fun y mem => (stringPlaces_inside (by omega) mem).2, ih (by omega)⟩

/-! ## Storing in one page -/

/-- Only the contents of page `v` have changed. -/
structure Rewrites (t t' : Table) (v : ℕ) : Prop where
  root : t'.root = t.root
  leaf : t'.leaf = t.leaf
  others : ∀ w, w ≠ v → t'.user w = t.user w
  there : t'.user v ≠ none

section

variable {ram : Ram} {p : ℕ} {h : Heap Page} {t : Table} {v : ℕ}

theorem Rewrites.refl (there : t.user v ≠ none) : Rewrites t t v := ⟨rfl, rfl, fun _ _ => rfl, there⟩

theorem Rewrites.trans {t' t'' : Table} (first : Rewrites t t' v) (second : Rewrites t' t'' v) :
    Rewrites t t'' v :=
  ⟨second.root.trans first.root, second.leaf.trans first.leaf,
    fun w ne => (second.others w ne).trans (first.others w ne), second.there⟩

theorem Rewrites.put (there : t.user v ≠ none) {va : ℕ} {bytes : List Byte} (lower : v * PGSIZE ≤ va)
    (upper : va + bytes.length ≤ v * PGSIZE + PGSIZE) : Rewrites t (t.put va bytes) v := by
  obtain ⟨x, hx⟩ := Option.ne_none_iff_exists'.mp there
  have place : va = v * PGSIZE + (va - v * PGSIZE) := (Nat.add_sub_cancel' lower).symm
  rw [place, put_page hx (by omega)]
  refine ⟨rfl, rfl, fun w ne => Function.update_of_ne ne _ _, ?_⟩
  rw [setUser_user, Function.update_self]
  nofun

theorem Rewrites.private {t' : Table} (rewrites : Rewrites t t' v) (priv : t.Private) : t'.Private := by
  intro w acc
  rw [Table.Accessible, rewrites.leaf] at acc
  by_cases e : w = v
  · exact e ▸ rewrites.there
  · rw [rewrites.others w e]
    exact priv w acc

theorem Rewrites.maps {t' : Table} (rewrites : Rewrites t t' v) {n : ℕ} {F : Flags → Prop}
    {rest : ℕ → Pte} (maps : t.Maps n F rest) (hv : v < n) : t'.Maps n F rest where
  user w hw := by
    by_cases e : w = v
    · exact e ▸ rewrites.there
    · rw [rewrites.others w e]
      exact maps.user w hw
  readable w hw := by
    rw [rewrites.leaf]
    exact maps.readable w hw
  flags w hw := by
    rw [rewrites.leaf]
    exact maps.flags w hw
  beyond w hw := by
    rw [rewrites.others w (by omega), rewrites.leaf]
    exact maps.beyond w hw
  rest_zero := maps.rest_zero

theorem Rewrites.accessible {t' : Table} (rewrites : Rewrites t t' v) {w : ℕ}
    (acc : t.Accessible w) : t'.Accessible w := by
  rwa [Table.Accessible, rewrites.leaf]

/-! ## Pushing the strings -/

theorem pushStrings_follows (priv : t.Private) (acc : t.Accessible v) (argv : List (List Byte))
    (ustack : List ℕ) {sp : ℕ} (aligned : sp % 16 = 0) (lower : v * PGSIZE ≤ sp)
    (upper : sp ≤ v * PGSIZE + PGSIZE) (guard : PGSIZE ≤ v * PGSIZE)
    (few : ustack.length + argv.length < MAXARG) (short : ∀ arg ∈ argv, arg.length < PGSIZE)
    (rep : t.Repr ram h) :
    (pushStrings t.root (v * PGSIZE) argv ustack sp).Follows (owned ram) p h fun r h' =>
      ∃ t', t'.Repr ram h' ∧ Rewrites t t' v ∧
        if v * PGSIZE + stringSpace argv ≤ sp then
          r = some (ustack ++ stringPlaces sp argv, sp - stringSpace argv) ∧
            (∀ a, sp ≤ a → t'.byte a = t.byte a) ∧
            argv.Forall₂ (StringAt t') (stringPlaces sp argv)
        else r = none := by
  have top : v * PGSIZE + PGSIZE < 2 ^ 64 := by
    have := acc.1
    simp only [MAXVA, PGSIZE] at this ⊢
    omega
  induction argv generalizing t h ustack sp with
  | nil =>
    refine ⟨t, rep, .refl (priv v acc), ?_⟩
    rw [if_pos (by rwa [stringSpace, map_nil, sum_nil, add_zero])]
    refine ⟨?_, fun _ _ => rfl, .nil⟩
    rw [stringPlaces, append_nil]
    rfl
  | cons arg argv ih =>
    rw [length_cons] at few
    have length := short arg mem_cons_self
    have size : arg.length + 1 ≤ round16 (arg.length + 1) := by
      rw [round16]
      omega
    have whole : round16 (arg.length + 1) ≤ sp := by
      rw [round16]
      omega
    rw [pushStrings, if_neg (by omega), push_eq aligned (by omega) (by omega), stringSpace_cons,
      stringPlaces]
    by_cases below : sp - round16 (arg.length + 1) < v * PGSIZE
    · rw [if_pos below]
      refine ⟨t, rep, .refl (priv v acc), ?_⟩
      rw [if_neg (by omega)]
    rw [if_neg below]
    have stack := not_lt.mp below
    have fits : sp - round16 (arg.length + 1) + (arg ++ [0]).length ≤ v * PGSIZE + PGSIZE := by
      rw [length_append, length_singleton]
      omega
    refine (copyout_page rep priv acc stack fits).bind ?_
    rintro _ h₁ ⟨rfl, rep₁⟩
    have one := Rewrites.put (priv v acc) stack fits
    rw [if_pos rfl]
    have aligned₁ : (sp - round16 (arg.length + 1)) % 16 = 0 := by
      rw [round16] at whole ⊢
      omega
    have few₁ : (ustack ++ [sp - round16 (arg.length + 1)]).length + argv.length < MAXARG := by
      rw [length_append, length_singleton]
      omega
    refine (ih (one.private priv) (one.accessible acc) _ aligned₁ stack (by omega) few₁
      (fun x mem => short x (mem_cons_of_mem _ mem)) rep₁).mono ?_
    rintro r h' ⟨t', rep', rewrites, post⟩
    refine ⟨t', rep', one.trans rewrites, ?_⟩
    have total : v * PGSIZE + (round16 (arg.length + 1) + stringSpace argv) ≤ sp ↔
        v * PGSIZE + stringSpace argv ≤ sp - round16 (arg.length + 1) := by
      rw [Nat.le_sub_iff_add_le whole, add_assoc, add_comm (stringSpace argv)]
    by_cases room : v * PGSIZE + stringSpace argv ≤ sp - round16 (arg.length + 1)
    · rw [if_pos room] at post
      obtain ⟨rfl, above, strings⟩ := post
      rw [if_pos (total.mpr room), append_assoc, singleton_append, Nat.sub_sub]
      refine ⟨rfl, fun a ha => ?_, .cons (fun k hk => ?_) strings⟩
      · rw [above a (by omega), byte_put_out]
        rw [length_append, length_singleton]
        omega
      · have page : (sp - round16 (arg.length + 1) + k) / PGSIZE = v := by
          simp only [PGSIZE] at stack fits ⊢
          rw [length_append, length_singleton] at fits
          omega
        rw [above _ (by omega), byte_put_in (by rw [page]; exact priv v acc) (by omega),
          Nat.add_sub_cancel_left]
        rw [length_append, length_singleton]
        omega
    · rw [if_neg room] at post
      rw [if_neg fun fit => room (total.mp fit)]
      exact post

/-! ## Pushing the array -/

theorem wordBytes_length (words : List ℕ) : (wordBytes words).length = 8 * words.length := by
  induction words with
  | nil => rfl
  | cons w words ih =>
    rw [wordBytes, flatMap_cons, length_append, length_map, length_range,
      length_cons, ← wordBytes, ih]
    omega

/-- What `exec` leaves in the stack page: the strings `argv` at the addresses `ptrs` and the array of
these addresses at `sp`, all below `top` and apart from each other. -/
structure Pushed (t : Table) (top : ℕ) (argv : List (List Byte)) (ptrs : List ℕ) (sp : ℕ) :
    Prop where
  aligned : sp % 16 = 0
  base : top ≤ sp + PGSIZE
  array : ∀ k < 8 * (argv.length + 1), t.byte (sp + k) = (wordBytes (ptrs ++ [0])).getD k 0
  strings : argv.Forall₂ (StringAt t) ptrs
  inside : ∀ x ∈ argv.zip ptrs, sp + 8 * (argv.length + 1) ≤ x.2 ∧ x.2 + x.1.length + 1 ≤ top
  apart : (argv.zip ptrs).Pairwise fun x y => y.2 + y.1.length + 1 ≤ x.2

/-- `exec` pushes the arguments if and only if they fit into one page. -/
theorem pushArgs_follows (priv : t.Private) (acc : t.Accessible v) (argv : List (List Byte))
    (guard : PGSIZE ≤ v * PGSIZE) (few : argv.length < MAXARG)
    (short : ∀ arg ∈ argv, arg.length < PGSIZE) (rep : t.Repr ram h) :
    (pushArgs t.root (v * PGSIZE) argv (v * PGSIZE + PGSIZE)).Follows (owned ram) p h fun r h' =>
      ∃ t', t'.Repr ram h' ∧ Rewrites t t' v ∧
        if argSpace argv ≤ PGSIZE then
          r = some (argv.length, v * PGSIZE + PGSIZE - argSpace argv) ∧
            Pushed t' (v * PGSIZE + PGSIZE) argv (stringPlaces (v * PGSIZE + PGSIZE) argv)
              (v * PGSIZE + PGSIZE - argSpace argv)
        else r = none := by
  have aligned : (v * PGSIZE + PGSIZE) % 16 = 0 := by
    simp only [PGSIZE]
    omega
  have small : v * PGSIZE + PGSIZE < 2 ^ 64 := by
    have := acc.1
    simp only [MAXVA, PGSIZE] at this ⊢
    omega
  generalize top_eq : v * PGSIZE + PGSIZE = top at aligned small ⊢
  have size : 8 * (argv.length + 1) ≤ round16 (8 * (argv.length + 1)) := by
    rw [round16]
    omega
  have array_small : 8 * (argv.length + 1) ≤ PGSIZE := by
    simp only [MAXARG, PGSIZE] at few ⊢
    omega
  rw [pushArgs]
  refine (pushStrings_follows priv acc argv [] aligned (by omega) (by omega) guard
    (by rwa [length_nil, zero_add]) short rep).bind ?_
  rintro r h₁ ⟨t₁, rep₁, rewrites, post⟩
  by_cases room : v * PGSIZE + stringSpace argv ≤ top
  swap
  · rw [if_neg room] at post
    subst post
    refine ⟨t₁, rep₁, rewrites, ?_⟩
    rw [if_neg]
    rw [argSpace]
    omega
  rw [if_pos room] at post
  obtain ⟨rfl, -, strings⟩ := post
  have strings_mod := stringSpace_mod argv
  rw [nil_append]
  dsimp only
  rw [stringPlaces_length, mul_comm (argv.length + 1),
    push_eq (by omega) (by omega) (by omega), Nat.sub_sub, ← argSpace]
  by_cases below : top - argSpace argv < v * PGSIZE
  · rw [if_pos below]
    refine ⟨t₁, rep₁, rewrites, ?_⟩
    rw [if_neg (by omega)]
  rw [if_neg below, ← rewrites.root]
  have stack := not_lt.mp below
  have space : argSpace argv = stringSpace argv + round16 (8 * (argv.length + 1)) := rfl
  have length : (wordBytes (stringPlaces top argv ++ [0])).length = 8 * (argv.length + 1) := by
    rw [wordBytes_length, length_append, length_singleton, stringPlaces_length]
  have fits : top - argSpace argv + (wordBytes (stringPlaces top argv ++ [0])).length ≤
      v * PGSIZE + PGSIZE := by omega
  refine (copyout_page rep₁ (rewrites.private priv) (rewrites.accessible acc) stack fits).bind ?_
  rintro _ h₂ ⟨rfl, rep₂⟩
  have stored := Rewrites.put rewrites.there stack fits
  refine ⟨_, rep₂, rewrites.trans stored, ?_⟩
  rw [if_pos (by omega)]
  have inside {x : List Byte × ℕ} (mem : x ∈ argv.zip (stringPlaces top argv)) :
      top - argSpace argv + 8 * (argv.length + 1) ≤ x.2 ∧ x.2 + x.1.length + 1 ≤ top := by
    have := stringPlaces_inside (by omega) mem
    omega
  refine ⟨rfl, ⟨?_, by omega, fun k hk => ?_, ?_, fun x mem => inside mem,
    stringPlaces_apart (by omega)⟩⟩
  · rw [round16] at space
    omega
  · have page : (top - argSpace argv + k) / PGSIZE = v := by
      simp only [PGSIZE] at stack fits ⊢
      omega
    rw [byte_put_in (by rw [page]; exact rewrites.there) (by omega) (by omega),
      Nat.add_sub_cancel_left]
  · rw [forall₂_iff_zip] at strings ⊢
    refine ⟨strings.1, fun {arg ptr} mem k hk => ?_⟩
    rw [byte_put_out (.inr ?_)]
    · exact strings.2 mem k hk
    · have := (inside mem).1
      dsimp only at this
      omega

end

end Xv6.Task
