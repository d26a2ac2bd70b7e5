import Xv6.Lib.Separation
import Xv6.Vm.Memory

/-!
# Page tables as finite maps

The abstract view of a three-level page table: where its pages are, the entry of every virtual page,
and the contents of the user pages that belong to it.  `Repr` says that a heap consists of exactly
these pages.
-/

namespace Xv6.Vm

open Function Option

/-- A page of an address space: a page-table page of one of the three levels, or the user page with a
virtual page number. -/
inductive Node where
  | root
  | mid (i : ℕ)
  | low (m : ℕ)
  | user (v : ℕ)
  deriving DecidableEq

/-- A page table with the user pages that belong to it. -/
structure Table where
  root : ℕ
  /-- The page for the virtual page numbers from `2 ^ 18 * i`. -/
  mid : ℕ → Option ℕ
  /-- The page for the virtual page numbers from `2 ^ 9 * m`. -/
  low : ℕ → Option ℕ
  /-- The entry of a virtual page, zero if it has none. -/
  leaf : ℕ → Pte
  user : ℕ → Option Page

def dir : Option ℕ → Pte
  | none => 0
  | some pg => mkPte pg PTE_V

/-- All pages are pages that `kalloc` manages. -/
def Within (ram : Ram) (h : Heap Page) : Prop := ∀ a, h a ≠ none → ram.first ≤ a ∧ a < ram.last

namespace Table

variable (t : Table)

def place : Node → Option ℕ
  | .root => some t.root
  | .mid i => t.mid i
  | .low m => t.low m
  | .user v => (t.user v).map fun _ => pte2pa (t.leaf v)

def content : Node → Page
  | .root => ofPtes fun i => dir (t.mid i)
  | .mid i => ofPtes fun j => dir (t.low (512 * i + j))
  | .low m => ofPtes fun k => t.leaf (512 * m + k)
  | .user v => (t.user v).getD (fill 0)

/-- Entries are only below existing page-table pages. -/
structure Wf : Prop where
  mid_lt : ∀ i, t.mid i ≠ none → i < 512
  low_mid : ∀ m, t.low m ≠ none → t.mid (m / 512) ≠ none
  leaf_low : ∀ v, t.leaf v ≠ 0 → t.low (v / 512) ≠ none
  user_valid : ∀ v, t.user v ≠ none → has (flags (t.leaf v)) PTE_V

/-- The heap consists of the pages of the table. -/
structure Repr (ram : Ram) (t : Table) (h : Heap Page) : Prop where
  wf : t.Wf
  placed : Placed t.place t.content h
  within : Within ram h

@[simps] def setMid (i : ℕ) (pg : Option ℕ) : Table := { t with mid := update t.mid i pg }

@[simps] def setLow (m : ℕ) (pg : Option ℕ) : Table := { t with low := update t.low m pg }

@[simps] def setLeaf (v : ℕ) (x : Pte) : Table := { t with leaf := update t.leaf v x }

@[simps] def setUser (v : ℕ) (x : Option Page) : Table :=
  { t with user := update t.user v x }

/-- The table without the entries and user pages from `a` to `a + n - 1`. -/
@[simps] def dropRange (a n : ℕ) : Table :=
  { t with
    leaf := fun v => if a ≤ v ∧ v < a + n then 0 else t.leaf v
    user := fun v => if a ≤ v ∧ v < a + n then none else t.user v }

/-- Only page-table pages have been added. -/
structure Grows (t t' : Table) : Prop where
  root : t'.root = t.root
  mid : ∀ i, t.mid i ≠ none → t'.mid i = t.mid i
  low : ∀ m, t.low m ≠ none → t'.low m = t.low m
  leaf : t'.leaf = t.leaf
  user : t'.user = t.user

variable {t} {t' t'' : Table} {ram : Ram} {h : Heap Page} {i m v pg : ℕ}

theorem Grows.refl : t.Grows t := ⟨rfl, fun _ _ => rfl, fun _ _ => rfl, rfl, rfl⟩

theorem Grows.trans (first : t.Grows t') (second : t'.Grows t'') : t.Grows t'' where
  root := second.root.trans first.root
  mid i hi := (second.mid i (by rwa [first.mid i hi])).trans (first.mid i hi)
  low m hm := (second.low m (by rwa [first.low m hm])).trans (first.low m hm)
  leaf := second.leaf.trans first.leaf
  user := second.user.trans first.user

theorem Grows.setMid (absent : t.mid i = none) : t.Grows (t.setMid i (some pg)) where
  root := rfl
  mid j hj := by
    have ne : j ≠ i := by
      rintro rfl
      exact hj absent
    rw [setMid_mid, update_of_ne ne]
  low _ _ := rfl
  leaf := rfl
  user := rfl

theorem Grows.setLow (absent : t.low m = none) : t.Grows (t.setLow m (some pg)) where
  root := rfl
  mid _ _ := rfl
  low j hj := by
    have ne : j ≠ m := by
      rintro rfl
      exact hj absent
    rw [setLow_low, update_of_ne ne]
  leaf := rfl
  user := rfl

end Table

/-! ## Directory entries -/

theorem flags_dir (fits : pg < 2 ^ 52) : flags (dir (some pg)) = PTE_V := flags_mkPte fits _

theorem pte2pa_dir (fits : pg < 2 ^ 52) : pte2pa (dir (some pg)) = pg := pte2pa_mkPte fits _

namespace Within

variable {ram : Ram} {h : Heap Page} {a : ℕ}

theorem fits (within : Within ram h) (own : h a ≠ none) : a < 2 ^ 52 :=
  Nat.lt_of_lt_of_le (within a own).2 ram.last_le

theorem update (within : Within ram h) (inside : ram.first ≤ a ∧ a < ram.last) (x : Option Page) :
    Within ram (update h a x) := by
  intro b own
  by_cases hb : b = a
  · exact hb ▸ inside
  · rw [update_of_ne hb] at own
    exact within b own

theorem update_of_own (within : Within ram h) (own : h a ≠ none) (x : Option Page) :
    Within ram (Function.update h a x) :=
  within.update (within a own) x

end Within

namespace Table.Repr

variable {t : Table} {ram : Ram} {h : Heap Page} {i m v pg : ℕ}

section

variable (rep : t.Repr ram h)
include rep

theorem get {n : Node} (at' : t.place n = some pg) : h pg = some (t.content n) :=
  rep.placed.get at'

theorem own {n : Node} (at' : t.place n = some pg) : h pg ≠ none := by
  rw [rep.get at']
  nofun

theorem fits {n : Node} (at' : t.place n = some pg) : pg < 2 ^ 52 :=
  rep.within.fits (rep.own at')

theorem user_page {x : Page} (there : t.user v = some x) : h (pte2pa (t.leaf v)) = some x := by
  have at' : t.place (.user v) = some (pte2pa (t.leaf v)) := by rw [place, there, map_some]
  rw [rep.get at', content, there, getD_some]

/-! ## Adding and removing page-table pages -/

theorem changeMid (hi : i < 512) (x : Option ℕ)
    (now : t.mid i = some pg ∨ t.mid i = none ∧ h pg = none) (later : ∀ b, x = some b → b = pg)
    (inside : ram.first ≤ pg ∧ pg < ram.last) (zero : ∀ j < 512, t.low (512 * i + j) = none) :
    (t.setMid i x).Repr ram
      (update (update h pg (x.map fun _ => fill 0)) t.root
        (some (setPte (t.content .root) i (dir x)))) := by
  refine ⟨⟨?_, ?_, rep.wf.leaf_low, rep.wf.user_valid⟩, ?_, ?_⟩
  · intro j hj
    by_cases e : j = i
    · exact e ▸ hi
    · rw [setMid_mid, update_of_ne e] at hj
      exact rep.wf.mid_lt j hj
  · intro m hm
    by_cases e : m / 512 = i
    · have := zero (m % 512) (Nat.mod_lt _ (by decide))
      rw [← e, Nat.div_add_mod] at this
      exact absurd this hm
    · rw [setMid_mid, update_of_ne e]
      exact rep.wf.low_mid m hm
  · have empty : (t.setMid i x).content (.mid i) = fill 0 := by
      rw [fill_zero]
      exact ofPtes_congr fun j hj => congrArg dir (zero j hj)
    have at' : (t.setMid i x).place (.mid i) = x := update_self ..
    have placed := rep.placed.relink (t.setMid i x).place (t.setMid i x).content
      (n := .mid i) (r := .root) (y := setPte (t.content .root) i (dir x)) nofun rfl now
      (fun b hb => later b (at'.symm.trans hb)) ?_ ?_ ?_
    · rwa [at', empty] at placed
    · rintro (_ | j | _ | _) hj
      · rfl
      · exact update_of_ne (fun e => hj (congrArg Node.mid e)) _ _
      · rfl
      · rfl
    · rw [content, content, setPte_ofPtes _ hi]
      refine ofPtes_congr fun j _ => ?_
      by_cases e : j = i
      · subst e
        simp
      · simp [e]
    · rintro (_ | _ | _ | _) _ hn _
      · exact absurd rfl hn
      · rfl
      · rfl
      · rfl
  · exact (rep.within.update inside _).update (rep.within t.root (rep.own (n := .root) rfl)) _

theorem addMid (hi : i < 512) (absent : t.mid i = none) (free : h pg = none)
    (inside : ram.first ≤ pg ∧ pg < ram.last) :
    (t.setMid i (some pg)).Repr ram
      (update (update h pg (some (fill 0))) t.root
        (some (setPte (t.content .root) i (mkPte pg PTE_V)))) := by
  refine rep.changeMid hi (some pg) (.inr ⟨absent, free⟩) (fun b hb => (some.inj hb).symm)
    inside fun j hj => ?_
  by_contra there
  have := rep.wf.low_mid _ there
  rw [show (512 * i + j) / 512 = i by omega] at this
  exact this absent

theorem dropMid (there : t.mid i = some pg) (zero : ∀ j < 512, t.low (512 * i + j) = none) :
    (t.setMid i none).Repr ram
      (update (update h pg none) t.root
        (some (setPte (t.content .root) i 0))) :=
  rep.changeMid (rep.wf.mid_lt i (by rw [there]; nofun)) none (.inl there) nofun
    (rep.within pg (rep.own (n := .mid i) there)) zero

theorem changeLow {mid : ℕ} (below : t.mid (m / 512) = some mid) (x : Option ℕ)
    (now : t.low m = some pg ∨ t.low m = none ∧ h pg = none) (later : ∀ b, x = some b → b = pg)
    (inside : ram.first ≤ pg ∧ pg < ram.last) (zero : ∀ k < 512, t.leaf (512 * m + k) = 0) :
    (t.setLow m x).Repr ram
      (update (update h pg (x.map fun _ => fill 0)) mid
        (some (setPte (t.content (.mid (m / 512))) (m % 512) (dir x)))) := by
  refine ⟨⟨rep.wf.mid_lt, ?_, ?_, rep.wf.user_valid⟩, ?_, ?_⟩
  · intro j hj
    by_cases e : j = m
    · rw [setLow_mid, e, below]
      nofun
    · rw [setLow_low, update_of_ne e] at hj
      exact rep.wf.low_mid j hj
  · intro v hv
    by_cases e : v / 512 = m
    · have := zero (v % 512) (Nat.mod_lt _ (by decide))
      rw [← e, Nat.div_add_mod] at this
      exact absurd this hv
    · rw [setLow_low, update_of_ne e]
      exact rep.wf.leaf_low v hv
  · have empty : (t.setLow m x).content (.low m) = fill 0 := by
      rw [fill_zero]
      exact ofPtes_congr fun k hk => zero k hk
    have at' : (t.setLow m x).place (.low m) = x := update_self ..
    have placed := rep.placed.relink (t.setLow m x).place (t.setLow m x).content
      (n := .low m) (r := .mid (m / 512))
      (y := setPte (t.content (.mid (m / 512))) (m % 512) (dir x)) nofun below now
      (fun b hb => later b (at'.symm.trans hb)) ?_ ?_ ?_
    · rwa [at', empty] at placed
    · rintro (_ | _ | j | _) hj
      · rfl
      · rfl
      · exact update_of_ne (fun e => hj (congrArg Node.low e)) _ _
      · rfl
    · rw [content, content, setPte_ofPtes _ (Nat.mod_lt _ (by decide))]
      refine ofPtes_congr fun j _ => ?_
      by_cases e : j = m % 512
      · subst e
        rw [setLow_low, Nat.div_add_mod]
        simp
      · rw [setLow_low, update_of_ne e, update_of_ne]
        omega
    · rintro (_ | j | _ | _) hn hn₀ _
      · rfl
      · rw [content, content]
        refine ofPtes_congr fun k hk => ?_
        have e : 512 * j + k ≠ m := by
          rintro rfl
          exact hn₀ (congrArg Node.mid (by omega))
        rw [setLow_low, update_of_ne e]
      · rfl
      · rfl
  · refine (rep.within.update inside _).update ?_ _
    exact rep.within mid (rep.own (n := .mid (m / 512)) below)

theorem addLow {mid : ℕ} (below : t.mid (m / 512) = some mid)
    (absent : t.low m = none) (free : h pg = none) (inside : ram.first ≤ pg ∧ pg < ram.last) :
    (t.setLow m (some pg)).Repr ram
      (update (update h pg (some (fill 0))) mid
        (some (setPte (t.content (.mid (m / 512))) (m % 512) (mkPte pg PTE_V)))) := by
  refine rep.changeLow below (some pg) (.inr ⟨absent, free⟩)
    (fun b hb => (some.inj hb).symm) inside fun k hk => ?_
  by_contra there
  have := rep.wf.leaf_low _ there
  rw [show (512 * m + k) / 512 = m by omega] at this
  exact this absent

theorem dropLow {mid : ℕ} (below : t.mid (m / 512) = some mid)
    (there : t.low m = some pg) (zero : ∀ k < 512, t.leaf (512 * m + k) = 0) :
    (t.setLow m none).Repr ram
      (update (update h pg none) mid
        (some (setPte (t.content (.mid (m / 512))) (m % 512) 0))) :=
  rep.changeLow below none (.inl there) nofun (rep.within pg (rep.own (n := .low m) there)) zero

end

/-! ## Entries and user pages -/

theorem content_setLeaf_of_ne {x : Pte} (ne : m ≠ v / 512) :
    (t.setLeaf v x).content (.low m) = t.content (.low m) := by
  rw [content, content]
  refine ofPtes_congr fun k hk => ?_
  rw [setLeaf_leaf, update_of_ne]
  omega

theorem content_setLeaf_self (x : Pte) :
    (t.setLeaf v x).content (.low (v / 512)) = setPte (t.content (.low (v / 512))) (v % 512) x := by
  rw [content, content, setPte_ofPtes _ (Nat.mod_lt _ (by decide))]
  refine ofPtes_congr fun k _ => ?_
  by_cases e : k = v % 512
  · subst e
    rw [setLeaf_leaf, Nat.div_add_mod, update_self, update_self]
  · rw [setLeaf_leaf, update_of_ne e, update_of_ne]
    omega

theorem setLeaf (rep : t.Repr ram h) (there : t.low (v / 512) = some pg) {x : Pte}
    (keep : t.user v ≠ none → has (flags x) PTE_V ∧ pte2pa x = pte2pa (t.leaf v)) :
    (t.setLeaf v x).Repr ram
      (update h pg (some (setPte (t.content (.low (v / 512))) (v % 512) x))) := by
  refine ⟨⟨rep.wf.mid_lt, rep.wf.low_mid, ?_, ?_⟩, ?_, ?_⟩
  · intro w hw
    by_cases e : w = v
    · rw [setLeaf_low, e, there]
      nofun
    · rw [setLeaf_leaf, update_of_ne e] at hw
      exact rep.wf.leaf_low w hw
  · intro w hw
    by_cases e : w = v
    · rw [setLeaf_leaf, e, update_self]
      exact (keep (e ▸ hw)).1
    · rw [setLeaf_leaf, update_of_ne e]
      exact rep.wf.user_valid w hw
  · refine rep.placed.set (n := Node.low (v / 512)) there ?_ (content_setLeaf_self x) ?_
    · funext n
      cases n with
      | user w =>
        by_cases e : w = v
        · subst e
          rw [place, place, setLeaf_user, setLeaf_leaf, update_self]
          cases hu : t.user w with
          | none => rfl
          | some y => rw [map_some, map_some, (keep (by rw [hu]; nofun)).2]
        · rw [place, place, setLeaf_user, setLeaf_leaf, update_of_ne e]
      | root | mid | low => rfl
    · rintro (_ | _ | m | _) hn _
      · rfl
      · rfl
      · exact content_setLeaf_of_ne fun e => hn (congrArg Node.low e)
      · rfl
  · exact rep.within.update_of_own (rep.own (n := .low (v / 512)) there) _

theorem changeUser (rep : t.Repr ram h) (valid : has (flags (t.leaf v)) PTE_V)
    (now : t.user v ≠ none ∨ h (pte2pa (t.leaf v)) = none)
    (inside : ram.first ≤ pte2pa (t.leaf v) ∧ pte2pa (t.leaf v) < ram.last) (x : Page) :
    (t.setUser v (some x)).Repr ram (update h (pte2pa (t.leaf v)) (some x)) := by
  refine ⟨⟨rep.wf.mid_lt, rep.wf.low_mid, rep.wf.leaf_low, ?_⟩, ?_, rep.within.update inside _⟩
  · intro w hw
    by_cases e : w = v
    · exact e ▸ valid
    · rw [setUser_user, update_of_ne e] at hw
      exact rep.wf.user_valid w hw
  · have at' : (t.setUser v (some x)).place (.user v) = some (pte2pa (t.leaf v)) := by
      rw [place, setUser_user, update_self, map_some, setUser_leaf]
    have mine : (t.setUser v (some x)).content (.user v) = x := by
      rw [content, setUser_user, update_self, getD_some]
    have placed := rep.placed.change (t.setUser v (some x)).place
      (t.setUser v (some x)).content (n := .user v) (a := pte2pa (t.leaf v)) ?_
      (fun b hb => some.inj (hb.symm.trans at')) ?_ ?_
    · rwa [at', map_some, mine] at placed
    · rw [place]
      cases hu : t.user v with
      | none => exact .inr ⟨rfl, now.resolve_left fun there => there hu⟩
      | some _ => exact .inl rfl
    · rintro (_ | _ | _ | w) hn
      · rfl
      · rfl
      · rfl
      · rw [place, place, setUser_user, setUser_leaf,
          update_of_ne fun e => hn (congrArg Node.user e)]
    · rintro (_ | _ | _ | w) hn _
      · rfl
      · rfl
      · rfl
      · rw [content, content, setUser_user, update_of_ne fun e => hn (congrArg Node.user e)]

theorem setUser (rep : t.Repr ram h) (there : t.user v ≠ none) (x : Page) :
    (t.setUser v (some x)).Repr ram (update h (pte2pa (t.leaf v)) (some x)) := by
  obtain ⟨y, hy⟩ := ne_none_iff_exists'.mp there
  have at' : t.place (.user v) = some (pte2pa (t.leaf v)) := by rw [place, hy, map_some]
  exact rep.changeUser (rep.wf.user_valid v there) (.inl there) (rep.within _ (rep.own at')) x

theorem dropUser (rep : t.Repr ram h) (there : t.user v ≠ none) (low : t.low (v / 512) = some pg) :
    ((t.setUser v none).setLeaf v 0).Repr ram
      (update (update h (pte2pa (t.leaf v)) none) pg
        (some (setPte (t.content (.low (v / 512))) (v % 512) 0))) := by
  obtain ⟨y, hy⟩ := ne_none_iff_exists'.mp there
  have at' : t.place (.user v) = some (pte2pa (t.leaf v)) := by rw [place, hy, map_some]
  refine ⟨⟨rep.wf.mid_lt, rep.wf.low_mid, ?_, ?_⟩, ?_, ?_⟩
  · intro w hw
    by_cases e : w = v
    · rw [setLeaf_low, setUser_low, e, low]
      nofun
    · rw [setLeaf_leaf, update_of_ne e] at hw
      exact rep.wf.leaf_low w hw
  · intro w hw
    by_cases e : w = v
    · rw [setLeaf_user, setUser_user, e, update_self] at hw
      exact absurd rfl hw
    · rw [setLeaf_user, setUser_user, update_of_ne e] at hw
      rw [setLeaf_leaf, update_of_ne e]
      exact rep.wf.user_valid w hw
  · have gone : ((t.setUser v none).setLeaf v 0).place (.user v) = none := by
      rw [place, setLeaf_user, setUser_user, update_self, map_none]
    have placed := rep.placed.relink ((t.setUser v none).setLeaf v 0).place
      ((t.setUser v none).setLeaf v 0).content (n := .user v) (r := .low (v / 512))
      nofun low (.inl at') (fun b hb => nomatch gone.symm.trans hb) ?_ (content_setLeaf_self 0) ?_
    · rwa [gone] at placed
    · rintro (_ | _ | _ | w) hn
      · rfl
      · rfl
      · rfl
      · have e : w ≠ v := fun e => hn (congrArg Node.user e)
        rw [place, place, setLeaf_user, setUser_user, setLeaf_leaf, update_of_ne e,
          update_of_ne e, setUser_leaf]
    · rintro (_ | _ | m | w) hn hn₀ _
      · rfl
      · rfl
      · exact content_setLeaf_of_ne fun e => hn₀ (congrArg Node.low e)
      · rw [content, content, setLeaf_user, setUser_user,
          update_of_ne fun e => hn (congrArg Node.user e)]
  · refine (rep.within.update_of_own (rep.own at') _).update ?_ _
    exact rep.within pg (rep.own (n := .low (v / 512)) low)

end Table.Repr

end Xv6.Vm
