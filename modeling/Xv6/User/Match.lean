import Mathlib.Computability.Language
import Xv6.Base

/-!
# The matcher of `grep`

`match`, `matchhere` and `matchstar` of `user/grep.c`, and the meaning of a pattern as a sequence of
languages.  A C string is the list of its characters; the end of the list is its NUL.
-/

namespace Xv6.User

open Language List

variable {stop : Bool} {text re : List Byte} {items : List Item} {c : Byte}

/-! ## The code -/

mutual

def matchhere (re text : List Byte) : Bool :=
  match re with
  | [] => true
  | c :: re =>
    if re.head? = some (ch '*') then matchstar c re.tail text
    else if c = ch '$' ∧ re = [] then text.isEmpty
    else
      match text with
      | [] => false
      | d :: text => if c = ch '.' ∨ c = d then matchhere re text else false
termination_by (re.length, text.length, 0)

def matchstar (c : Byte) (re text : List Byte) : Bool :=
  if matchhere re text then true
  else
    match text with
    | [] => false
    | d :: text => if d = c ∨ c = ch '.' then matchstar c re text else false
termination_by (re.length, text.length, 1)

end

/-- The loop of `match` over the positions of `text`, the end included. -/
def matchFrom (re : List Byte) : List Byte → Bool
  | [] => matchhere re []
  | d :: text => if matchhere re (d :: text) then true else matchFrom re text

/-- `match(re, text)`. -/
def matchRe (re text : List Byte) : Bool :=
  if re.head? = some (ch '^') then matchhere re.tail text else matchFrom re text

/-! ## The meaning of a pattern -/

/-- An item of a pattern: a character, or a character with a star. -/
inductive Item where
  | one (c : Byte)
  | star (c : Byte)

/-- The words of one letter that a character of a pattern stands for. -/
def atom (c : Byte) : Language Byte := {w | ∃ d, w = [d] ∧ (c = ch '.' ∨ c = d)}

open Computability in
def Item.lang : Item → Language Byte
  | .one c => atom c
  | .star c => (atom c)∗

/-- A pattern that has been read: whether it is anchored at the start, its items, and whether it is
anchored at the end. -/
structure Regex where
  start : Bool
  items : List Item
  stop : Bool

/-- The items of a pattern, and whether an unstarred `$` ends it. -/
def readItems : List Byte → List Item × Bool
  | [] => ([], false)
  | [c] => if c = ch '$' then ([], true) else ([.one c], false)
  | c :: d :: re =>
    if d = ch '*' then ((readItems re).1.cons (.star c), (readItems re).2)
    else ((readItems (d :: re)).1.cons (.one c), (readItems (d :: re)).2)

/-- The pattern, read from its text. -/
def readRegex (re : List Byte) : Regex :=
  if re.head? = some (ch '^') then ⟨true, (readItems re.tail).1, (readItems re.tail).2⟩
  else ⟨false, (readItems re).1, (readItems re).2⟩

/-- The words that a sequence of items stands for. -/
def seqLang (items : List Item) : Language Byte := (items.map Item.lang).prod

/-- Some substring of `text`, at the start or the end if the pattern is anchored there, is a word of
the pattern. -/
def Regex.Matches (r : Regex) (text : List Byte) : Prop :=
  ∃ before word after, text = before ++ word ++ after ∧ word ∈ seqLang r.items ∧
    (r.start → before = []) ∧ (r.stop → after = [])

/-! ## Items at the beginning of a text -/

/-- A word of the items begins `text`, and ends it if `stop` says so. -/
def Here (items : List Item) (stop : Bool) (text : List Byte) : Prop :=
  ∃ word after, text = word ++ after ∧ word ∈ seqLang items ∧ (stop → after = [])

theorem here_nil : Here [] stop text ↔ (stop → text = []) := by
  constructor
  · rintro ⟨word, after, rfl, empty, last⟩ anchored
    rw [show word = [] from empty, last anchored, append_nil]
  · intro last
    exact ⟨[], text, rfl, nil_mem_one, last⟩

theorem mem_seqLang_cons {i : Item} {word : List Byte} :
    word ∈ seqLang (i :: items) ↔ ∃ u ∈ i.lang, ∃ v ∈ seqLang items, u ++ v = word := by
  rw [seqLang, map_cons, prod_cons, mem_mul]
  rfl

theorem here_one :
    Here (.one c :: items) stop text ↔
      ∃ d rest, text = d :: rest ∧ (c = ch '.' ∨ c = d) ∧ Here items stop rest := by
  constructor
  · rintro ⟨word, after, rfl, inLang, last⟩
    obtain ⟨u, ⟨d, rfl, accepts⟩, v, inRest, rfl⟩ := mem_seqLang_cons.mp inLang
    exact ⟨d, v ++ after, rfl, accepts, v, after, rfl, inRest, last⟩
  · rintro ⟨d, rest, rfl, accepts, v, after, rfl, inRest, last⟩
    exact ⟨[d] ++ v, after, rfl, mem_seqLang_cons.mpr ⟨[d], ⟨d, rfl, accepts⟩, v, inRest, rfl⟩, last⟩

open Computability in
theorem mem_star_atom {word : List Byte} :
    word ∈ (atom c)∗ ↔
      word = [] ∨ ∃ d rest, word = d :: rest ∧ (c = ch '.' ∨ c = d) ∧ rest ∈ (atom c)∗ := by
  have unfold : (atom c)∗ = 1 + atom c * (atom c)∗ := (one_add_self_mul_kstar_eq_kstar _).symm
  conv_lhs => rw [unfold]
  rw [mem_add, mem_one, mem_mul]
  refine or_congr_right ⟨?_, ?_⟩
  · rintro ⟨u, ⟨d, rfl, accepts⟩, v, inStar, rfl⟩
    exact ⟨d, v, rfl, accepts, inStar⟩
  · rintro ⟨d, rest, rfl, accepts, inStar⟩
    exact ⟨[d], ⟨d, rfl, accepts⟩, rest, inStar, rfl⟩

theorem here_star :
    Here (.star c :: items) stop text ↔ Here items stop text ∨
      ∃ d rest, text = d :: rest ∧ (c = ch '.' ∨ c = d) ∧ Here (.star c :: items) stop rest := by
  constructor
  · rintro ⟨word, after, rfl, inLang, last⟩
    obtain ⟨u, inStar, v, inRest, rfl⟩ := mem_seqLang_cons.mp inLang
    rcases mem_star_atom.mp inStar with rfl | ⟨d, rest, rfl, accepts, inStar⟩
    · exact .inl ⟨v, after, rfl, inRest, last⟩
    · exact .inr ⟨d, rest ++ v ++ after, rfl, accepts, rest ++ v, after, rfl,
        mem_seqLang_cons.mpr ⟨rest, inStar, v, inRest, rfl⟩, last⟩
  · rintro (⟨v, after, rfl, inRest, last⟩ | ⟨d, rest, rfl, accepts, word, after, rfl, inLang, last⟩)
    · exact ⟨v, after, rfl,
        mem_seqLang_cons.mpr ⟨[], mem_star_atom.mpr (.inl rfl), v, inRest, rfl⟩, last⟩
    · obtain ⟨u, inStar, v, inRest, rfl⟩ := mem_seqLang_cons.mp inLang
      refine ⟨d :: u ++ v, after, rfl, mem_seqLang_cons.mpr ⟨d :: u, ?_, v, inRest, rfl⟩, last⟩
      exact mem_star_atom.mpr (.inr ⟨d, u, rfl, accepts, inStar⟩)

/-- The pattern anchored at the start matches the beginning; otherwise some suffix. -/
theorem Regex.matches_iff {r : Regex} :
    r.Matches text ↔
      if r.start then Here r.items r.stop text
      else ∃ before suffix, text = before ++ suffix ∧ Here r.items r.stop suffix := by
  split_ifs with anchored
  · constructor
    · rintro ⟨before, word, after, rfl, inLang, first, last⟩
      rw [first anchored]
      exact ⟨word, after, rfl, inLang, last⟩
    · rintro ⟨word, after, rfl, inLang, last⟩
      exact ⟨[], word, after, rfl, inLang, fun _ => rfl, last⟩
  · constructor
    · rintro ⟨before, word, after, rfl, inLang, -, last⟩
      exact ⟨before, word ++ after, append_assoc .., word, after, rfl, inLang, last⟩
    · rintro ⟨before, suffix, rfl, word, after, rfl, inLang, last⟩
      exact ⟨before, word, after, (append_assoc ..).symm, inLang,
        fun yes => absurd yes anchored, last⟩

/-! ## The code computes the meaning -/

theorem readItems_star (starred : re.head? = some (ch '*')) :
    readItems (c :: re) = (.star c :: (readItems re.tail).1, (readItems re.tail).2) := by
  cases re with
  | nil => cases starred
  | cons d re =>
    obtain rfl := Option.some.inj starred
    rw [readItems, if_pos rfl]
    rfl

theorem readItems_one (plain : re.head? ≠ some (ch '*')) (inside : ¬ (c = ch '$' ∧ re = [])) :
    readItems (c :: re) = (.one c :: (readItems re).1, (readItems re).2) := by
  cases re with
  | nil =>
    have notLast : c ≠ ch '$' := fun last => inside ⟨last, rfl⟩
    simp only [readItems, if_neg notLast]
  | cons d re => rw [readItems, if_neg fun star => plain (congrArg some star)]

theorem matchstar_iff (here : ∀ text, matchhere re text = true ↔ Here items stop text) (c : Byte)
    (text : List Byte) : matchstar c re text = true ↔ Here (.star c :: items) stop text := by
  induction text with
  | nil =>
    rw [matchstar, here_star, ← here []]
    simp
  | cons d text ih =>
    rw [matchstar, here_star, ← here (d :: text)]
    split_ifs with found accepts
    · exact iff_of_true rfl (.inl found)
    · rw [ih]
      constructor
      · intro rest
        exact .inr ⟨d, text, rfl, accepts.symm.imp_right Eq.symm, rest⟩
      · rintro (here | ⟨_, _, ⟨⟩, -, rest⟩)
        · exact absurd here found
        · exact rest
    · refine iff_of_false nofun ?_
      rintro (here | ⟨_, _, ⟨⟩, fits, -⟩)
      · exact found here
      · exact accepts (fits.symm.imp_left Eq.symm)

theorem matchhere_iff (re text : List Byte) :
    matchhere re text = true ↔ Here (readItems re).1 (readItems re).2 text :=
  match re with
  | [] => by
    rw [matchhere, readItems, here_nil]
    simp
  | c :: re => by
    rw [matchhere.eq_def]
    dsimp only
    split_ifs with starred last
    · rw [readItems_star starred]
      exact matchstar_iff (fun text => matchhere_iff re.tail text) c text
    · obtain ⟨rfl, rfl⟩ := last
      rw [readItems, if_pos rfl, here_nil]
      simp
    · rw [readItems_one starred last, here_one]
      cases text with
      | nil => simp
      | cons d text => simp [matchhere_iff re text]
termination_by re.length

theorem matchFrom_iff (re text : List Byte) :
    matchFrom re text = true ↔
      ∃ before suffix, text = before ++ suffix ∧ matchhere re suffix = true := by
  induction text with
  | nil => simp [matchFrom]
  | cons d text ih =>
    rw [matchFrom]
    split_ifs with found
    · exact iff_of_true rfl ⟨[], d :: text, rfl, found⟩
    · rw [ih]
      constructor
      · rintro ⟨before, suffix, rfl, here⟩
        exact ⟨d :: before, suffix, rfl, here⟩
      · rintro ⟨before, suffix, split, here⟩
        cases before with
        | nil =>
          obtain rfl : d :: text = suffix := split
          exact absurd here found
        | cons e before =>
          obtain ⟨rfl, rfl⟩ := cons.inj split
          exact ⟨before, suffix, rfl, here⟩

/-- `match` returns 1 exactly if a substring of the text matches the pattern. -/
theorem matchRe_iff_matches (re text : List Byte) :
    matchRe re text = true ↔ (readRegex re).Matches text := by
  rw [Regex.matches_iff, matchRe]
  by_cases anchored : re.head? = some (ch '^')
  · rw [readRegex, if_pos anchored, if_pos anchored, if_pos rfl]
    exact matchhere_iff re.tail text
  · rw [readRegex, if_neg anchored, if_neg anchored, if_neg nofun, matchFrom_iff]
    simp only [matchhere_iff]

end Xv6.User
