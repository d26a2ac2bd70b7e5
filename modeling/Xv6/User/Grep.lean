import Mathlib.Data.List.GetD
import Xv6.User.Match
import Xv6.User.Ulib

/-!
# The line buffer of `grep`

`grep` of `user/grep.c` reads a stream in pieces, assembles lines in a buffer of 1024 bytes and
writes those that match.  It stops at the first line that does not fit into the buffer.
-/

namespace Xv6.User

open List

variable {s pattern : List Byte} {b : Bytes BUFLEN}

/-! ## The code -/

abbrev BUFLEN : ℕ := 1024

def nl : Byte := ch '\n'

/-- `read(fd, buf, n)`: some bytes of the stream, at least one if possible; `most` is the number of
bytes that are available, less one. -/
def readSome (most n : ℕ) (stream : List Byte) : List Byte :=
  stream.take (min n (most + 1))

theorem length_readSome (most n : ℕ) (stream : List Byte) :
    (readSome most n stream).length = min (min n (most + 1)) stream.length := length_take ..

theorem drop_readSome_lt {most n : ℕ} {stream : List Byte}
    (some : 0 < (readSome most n stream).length) :
    (stream.drop (readSome most n stream).length).length < stream.length := by
  have := length_readSome most n stream
  rw [length_drop]
  omega

theorem readSome_append_drop (most n : ℕ) (stream : List Byte) :
    readSome most n stream ++ stream.drop (readSome most n stream).length = stream := by
  have cut : (readSome most n stream).length = min (min n (most + 1)) stream.length :=
    length_readSome ..
  rcases Nat.le_total (min n (most + 1)) stream.length with short | long
  · rw [cut, min_eq_left short]
    exact take_append_drop _ stream
  · rw [cut, min_eq_right long, drop_length, append_nil]
    exact take_of_length_le long

def written (b : Bytes BUFLEN) (p n : ℕ) : List Byte :=
  (range n).map fun i => b.byte (p + i)

def grepLines (pattern : List Byte) (b : Bytes BUFLEN) (p : ℕ)
    (out : List (List Byte)) : Bytes BUFLEN × ℕ × List (List Byte) :=
  match found : strchr b nl p with
  | none => (b, p, out)
  | some q =>
    let ended := poke b q 0
    if matchRe pattern (cstr ended p) then
      let restored := poke ended q nl
      grepLines pattern restored (q + 1) (out ++ [written restored p (q + 1 - p)])
    else grepLines pattern ended (q + 1) out
termination_by BUFLEN - p
decreasing_by all_goals have := strchr_bounds found; omega

/-- `while((n = read(fd, buf+m, sizeof(buf)-m-1)) > 0)` from the `k`-th `read` on: the buffers given to
`write`. -/
def grepLoop (pattern : List Byte) (cut : ℕ → ℕ) (k : ℕ) (b : Bytes BUFLEN) (m : ℕ)
    (stream : List Byte) (out : List (List Byte)) : List (List Byte) :=
  let got := readSome (cut k) (BUFLEN - m - 1) stream
  if 0 < got.length then
    let filled := b.blit m got.length (got.getD · 0)
    let m' := m + got.length
    let (b', p, out') := grepLines pattern (poke filled m' 0) 0 out
    let rest := stream.drop got.length
    if 0 < m' then grepLoop pattern cut (k + 1) (memmove b' 0 p (m' - p)) (m' - p) rest out'
    else grepLoop pattern cut (k + 1) b' m' rest out'
  else out
termination_by stream.length
decreasing_by all_goals exact drop_readSome_lt ‹_›

/-- `grep(pattern, fd)`, with the bytes that an earlier call has left in the buffer. -/
def grep (pattern : List Byte) (buf : Bytes BUFLEN) (cut : ℕ → ℕ)
    (stream : List Byte) : List (List Byte) :=
  grepLoop pattern cut 0 buf 0 stream []

/-! ## Lines -/

/-- The finished lines. -/
def lines (s : List Byte) : List (List Byte) := (s.splitOn nl).dropLast

theorem lines_eq_nil (none : nl ∉ s) : lines s = [] := by
  rw [lines, splitOn_eq_singleton none]
  rfl

theorem lines_cons {line : List Byte} (whole : nl ∉ line) (rest : List Byte) :
    lines (line ++ nl :: rest) = line :: lines rest := by
  rw [lines, splitOn_append_cons_self_of_not_mem whole,
    dropLast_cons_of_ne_nil (splitOn_ne_nil _ _)]
  rfl

theorem first_line (s : List Byte) : nl ∉ s ∨ ∃ line rest, nl ∉ line ∧ s = line ++ nl :: rest := by
  by_cases some : nl ∈ s
  · obtain ⟨line, rest, split, whole⟩ := eq_append_cons_of_mem some
    exact .inr ⟨line, rest, whole, split⟩
  · exact .inl some

/-- What should be written: the lines that match, with their newlines. -/
def matching (pattern : List Byte) (ls : List (List Byte)) : List (List Byte) :=
  (ls.filter (matchRe pattern)).map (· ++ [nl])

theorem matching_append (pattern : List Byte) (ls ls' : List (List Byte)) :
    matching pattern (ls ++ ls') = matching pattern ls ++ matching pattern ls' := by
  rw [matching, filter_append, map_append]
  rfl

theorem matching_cons (pattern line : List Byte) (ls : List (List Byte)) :
    matching pattern (line :: ls) =
      (if matchRe pattern line then [line ++ [nl]] else []) ++ matching pattern ls := by
  rw [matching, filter_cons]
  split_ifs with found
  · rfl
  · rfl

/-! ## The lines in the buffer -/

theorem nl_ne_zero : nl ≠ 0 := by decide

theorem written_eq {p : ℕ} (holds : HoldsAt b p s) : written b p s.length = s := by
  refine ext_getElem (by rw [written, length_map, length_range]) fun i _ hi => ?_
  simp only [written, getElem_map, getElem_range]
  rw [holds i hi, getD_eq_getElem _ _ hi]

theorem grepLines_none {p : ℕ} (found : strchr b nl p = none) (out : List (List Byte)) :
    grepLines pattern b p out = (b, p, out) := by
  rw [grepLines]
  split
  · rfl
  · next some =>
    rw [found] at some
    cases some

theorem grepLines_some {p q : ℕ} (found : strchr b nl p = some q) (out : List (List Byte)) :
    grepLines pattern b p out =
      if matchRe pattern (cstr (poke b q 0) p) then
        grepLines pattern (poke (poke b q 0) q nl) (q + 1)
          (out ++ [written (poke (poke b q 0) q nl) p (q + 1 - p)])
      else grepLines pattern (poke b q 0) (q + 1) out := by
  rw [grepLines]
  split
  · next none =>
    rw [found] at none
    cases none
  · next q' some =>
    rw [found] at some
    cases some
    rfl

theorem grepLines_line (pattern : List Byte) {p : ℕ} {line rest : List Byte}
    (holds : HoldsAt b p (line ++ nl :: rest)) (fits : p + line.length < BUFLEN) (nonzero : 0 ∉ line)
    (whole : nl ∉ line) (out : List (List Byte)) :
    ∃ b', grepLines pattern b p out = grepLines pattern b' (p + line.length + 1)
        (out ++ if matchRe pattern line then [line ++ [nl]] else []) ∧
      ∀ i, p + line.length < i → b'.byte i = b.byte i := by
  obtain ⟨inLine, behind⟩ := holdsAt_append.mp holds
  have newline := (holdsAt_cons.mp behind).1
  have found := strchr_eq_some inLine newline fits nonzero nl_ne_zero whole
  set q := p + line.length with atNewline
  have before : ∀ v w, HoldsAt (poke (poke b q v) q w) p line := fun v w =>
    inLine.congr fun i _ below => by
      rw [byte_poke_of_ne _ _ (by omega), byte_poke_of_ne _ _ (by omega)]
  have text : cstr (poke b q 0) p = line :=
    cstr_eq (inLine.congr fun i _ below => byte_poke_of_ne _ _ (by omega)) (byte_poke b 0 fits)
      (le_of_lt fits) nonzero
  rw [grepLines_some found, text]
  split_ifs with isMatch
  · have shown : HoldsAt (poke (poke b q 0) q nl) p (line ++ [nl]) :=
      holdsAt_append.mpr ⟨before 0 nl, holdsAt_cons.mpr ⟨byte_poke _ _ fits, .nil _ _⟩⟩
    have size : q + 1 - p = (line ++ [nl]).length := by
      rw [length_append, length_singleton]
      omega
    rw [size, written_eq shown]
    refine ⟨_, rfl, fun i above => ?_⟩
    rw [byte_poke_of_ne _ _ (by omega), byte_poke_of_ne _ _ (by omega)]
  · rw [append_nil]
    exact ⟨_, rfl, fun i above => byte_poke_of_ne _ _ (by omega)⟩

/-- What the loop over the lines of the buffer leaves: the matching lines are written, and the bytes
after the last newline stand at the new `p`. -/
theorem grepLines_spec (pattern : List Byte) {p : ℕ}
    (holds : HoldsAt b p s) (ends : b.byte (p + s.length) = 0)
    (fits : p + s.length < BUFLEN) (nonzero : 0 ∉ s) (out : List (List Byte)) :
    ∃ b' p' tail, grepLines pattern b p out = (b', p', out ++ matching pattern (lines s)) ∧
      HoldsAt b' p' tail ∧ p' + tail.length = p + s.length ∧ nl ∉ tail ∧ tail ⊆ s ∧
      ∀ rest, lines (s ++ rest) = lines s ++ lines (tail ++ rest) := by
  induction h : s.length using Nat.strong_induction_on generalizing b p s out with
  | _ len ih =>
  rcases first_line s with none | ⟨line, rest, whole, rfl⟩
  · refine ⟨b, p, s, ?_, holds, by rw [h], none, List.Subset.refl s, fun rest => ?_⟩
    · rw [grepLines_none (strchr_eq_none holds ends none), lines_eq_nil none]
      exact (congrArg (fun o => (b, p, o)) (append_nil out)).symm
    · rw [lines_eq_nil none, nil_append]
  · have total : (line ++ nl :: rest).length = line.length + 1 + rest.length := by
      rw [length_append, length_cons]
      omega
    have total' : p + (line ++ nl :: rest).length = p + line.length + 1 + rest.length := by omega
    simp only [mem_append, mem_cons, not_or] at nonzero
    obtain ⟨b', step, same⟩ :=
      grepLines_line pattern holds (by omega) nonzero.1 whole out
    have behind := (holdsAt_cons.mp (holdsAt_append.mp holds).2).2
    obtain ⟨b'', p', tail, run, holdsTail, place, open', inside, later⟩ :=
      ih rest.length (by omega) (behind.congr fun i above _ => same i (by omega))
        (by rwa [same _ (by omega), ← total']) (by omega) nonzero.2.2
        (out ++ if matchRe pattern line then [line ++ [nl]] else []) rfl
    refine ⟨b'', p', tail, ?_, holdsTail, by omega, open', ?_, fun more => ?_⟩
    · rw [step, run, lines_cons whole, matching_cons, append_assoc]
    · exact fun c hc => mem_append_right _ (mem_cons_of_mem _ (inside hc))
    · rw [append_assoc, cons_append, lines_cons whole, later, lines_cons whole, cons_append]

/-! ## The stream -/

/-- The line fits into the buffer of `grep`. -/
def fitsBuf (line : List Byte) : Bool := line.length + 2 ≤ BUFLEN

theorem takeWhile_lines_long {pending : List Byte} (unfinished : nl ∉ pending)
    (full : pending.length = BUFLEN - 1) (stream : List Byte) :
    (lines (pending ++ stream)).takeWhile fitsBuf = [] := by
  rcases first_line stream with none | ⟨line, rest, whole, rfl⟩
  · rw [lines_eq_nil (by rw [mem_append]; tauto)]
    rfl
  · have long : fitsBuf (pending ++ line) = false := by
      rw [fitsBuf, decide_eq_false_iff_not, length_append]
      omega
    rw [← append_assoc, lines_cons (by rw [mem_append]; tauto), takeWhile_cons, long]
    rfl

theorem mem_lines_length {s line : List Byte} (mem : line ∈ lines s) : line.length < s.length := by
  induction h : s.length using Nat.strong_induction_on generalizing s with
  | _ len ih =>
  rcases first_line s with none | ⟨first, rest, whole, rfl⟩
  · rw [lines_eq_nil none] at mem
    cases mem
  · rw [length_append, length_cons] at h
    rw [lines_cons whole, mem_cons] at mem
    rcases mem with rfl | later
    · omega
    · have := ih rest.length (by omega) later rfl
      omega

theorem filled_holds {pending got : List Byte}
    (holds : HoldsAt b 0 pending) (fits : pending.length + got.length < BUFLEN) :
    HoldsAt (poke (b.blit pending.length got.length (got.getD · 0))
      (pending.length + got.length) 0) 0 (pending ++ got) := by
  refine holdsAt_append.mpr ⟨holds.congr fun i _ below => ?_, ?_⟩
  · rw [byte_poke_of_ne _ _ (by omega), Bytes.byte_blit_out _ _ (by omega)]
  · rw [zero_add]
    exact (holdsAt_blit (le_of_lt fits) fun _ _ => rfl).congr fun i _ below =>
      byte_poke_of_ne _ _ (by omega)

/-- From a buffer that holds the unfinished line, `grep` writes the matching lines up to the first one
that does not fit into the buffer, however `read` cuts the stream. -/
theorem grepLoop_eq (pattern : List Byte) (cut : ℕ → ℕ) (k : ℕ) {pending stream : List Byte}
    (holds : HoldsAt b 0 pending) (unfinished : nl ∉ pending) (fits : pending.length < BUFLEN)
    (nonzero : 0 ∉ pending ++ stream) (out : List (List Byte)) :
    grepLoop pattern cut k b pending.length stream out =
      out ++ matching pattern ((lines (pending ++ stream)).takeWhile fitsBuf) := by
  induction h : stream.length using Nat.strong_induction_on generalizing k b pending stream out with
  | _ len ih =>
  rw [grepLoop]
  dsimp only
  set got := readSome (cut k) (BUFLEN - pending.length - 1) stream with atRead
  have size := length_readSome (cut k) (BUFLEN - pending.length - 1) stream
  rw [← atRead] at size
  have split : got ++ stream.drop got.length = stream := readSome_append_drop ..
  by_cases some : 0 < got.length
  · rw [if_pos some, if_pos (by omega)]
    have fits' : 0 + (pending ++ got).length < BUFLEN := by
      rw [length_append]
      omega
    have nonzero' : 0 ∉ (pending ++ got) ++ stream.drop got.length := by
      rwa [append_assoc, split]
    have clean : 0 ∉ pending ++ got := fun zero => nonzero' (mem_append_left _ zero)
    obtain ⟨b', p, tail, run, holdsTail, place, open', inside, later⟩ :=
      grepLines_spec pattern (filled_holds holds (by omega))
        (by rw [zero_add, length_append, byte_poke _ _ (by omega)]) fits' clean out
    rw [length_append] at place
    rw [run]
    dsimp only
    rw [memmove_eq, show pending.length + got.length - p = tail.length by omega]
    have moved : HoldsAt (b'.blit 0 tail.length fun i => b'.byte (p + i)) 0 tail :=
      holdsAt_blit (by omega) holdsTail
    have zeros : 0 ∉ tail ++ stream.drop got.length := fun zero =>
      (mem_append.mp zero).elim (fun here => clean (inside here)) fun there =>
        nonzero' (mem_append_right _ there)
    have allFit : ∀ line ∈ lines (pending ++ got), fitsBuf line = true := by
      intro line mem
      have := mem_lines_length mem
      rw [fitsBuf, decide_eq_true_eq]
      omega
    have all : lines (pending ++ stream) =
        lines (pending ++ got) ++ lines (tail ++ stream.drop got.length) := by
      rw [← later, append_assoc, split]
    rw [ih _ (h ▸ drop_readSome_lt some) (k + 1) moved open' (by omega) zeros _ rfl, all,
      takeWhile_append_of_pos allFit, matching_append, append_assoc]
  · -- `read` returns nothing at the end of the stream, or because the buffer is full
    rw [if_neg some]
    by_cases done : stream = []
    · rw [done, append_nil, lines_eq_nil unfinished]
      exact (append_nil out).symm
    · have := length_pos_of_ne_nil done
      rw [takeWhile_lines_long unfinished (by omega)]
      exact (append_nil out).symm

theorem grep_eq (pattern : List Byte) (buf : Bytes BUFLEN) (cut : ℕ → ℕ)
    {stream : List Byte} (nonzero : 0 ∉ stream) :
    grep pattern buf cut stream = matching pattern ((lines stream).takeWhile fitsBuf) :=
  grepLoop_eq pattern cut 0 (HoldsAt.nil buf 0) not_mem_nil (by decide) nonzero []

theorem matching_eq_nil {ls : List (List Byte)} :
    matching pattern ls = [] ↔ ∀ line ∈ ls, matchRe pattern line = false := by
  rw [matching, map_eq_nil_iff, filter_eq_nil_iff]
  simp

/-- `grep` writes exactly the matching lines, however `read` cuts the stream, exactly if no line from
the first one on that does not fit into the buffer matches. -/
theorem grep_eq_matching_iff (pattern : List Byte) (buf : Bytes BUFLEN) (cut : ℕ → ℕ)
    (stream : List Byte) (nonzero : 0 ∉ stream) :
    grep pattern buf cut stream = matching pattern (lines stream) ↔
      ∀ line ∈ (lines stream).dropWhile fitsBuf, matchRe pattern line = false := by
  rw [grep_eq pattern buf cut nonzero, ← matching_eq_nil]
  conv_lhs => rhs; rw [← takeWhile_append_dropWhile (p := fitsBuf) (l := lines stream)]
  rw [matching_append, self_eq_append_right]

/-- All lines of a short text are read, one byte at a time. -/
theorem grep_short_lines :
    grep [ch 'b'] (fun _ => 0) (fun _ => 0) [ch 'a', nl, ch 'b', nl, ch 'b'] =
      matching [ch 'b'] (lines [ch 'a', nl, ch 'b', nl, ch 'b']) := by
  refine (grep_eq_matching_iff _ _ _ _ (by decide)).mpr ?_
  have none : (lines [ch 'a', nl, ch 'b', nl, ch 'b']).dropWhile fitsBuf = [] := by decide
  rw [none]
  exact nofun

theorem matchRe_self (c : Byte) (plain : c ≠ ch '^') (last : c ≠ ch '$')
    (text : List Byte) : matchRe [c] (c :: text) = true := by
  have here : matchhere [c] (c :: text) = true := by
    rw [matchhere.eq_def]
    simp [last, matchhere]
  rw [matchRe, if_neg (by simpa using plain), matchFrom, if_pos here]

/-- A line of 1023 bytes that matches is not written. -/
theorem grep_loses_long_line :
    0 ∉ replicate 1023 (ch 'a') ++ [nl] ∧
      grep [ch 'a'] (fun _ => 0) (fun _ => 1023) (replicate 1023 (ch 'a') ++ [nl]) ≠
        matching [ch 'a'] (lines (replicate 1023 (ch 'a') ++ [nl])) := by
  have letter : ∀ c ∈ replicate 1023 (ch 'a'), c = ch 'a' := fun c mem =>
    eq_of_mem_replicate mem
  have whole : nl ∉ replicate 1023 (ch 'a') := fun mem => absurd (letter nl mem) (by decide)
  have nonzero : 0 ∉ replicate 1023 (ch 'a') ++ [nl] := by
    rw [mem_append, mem_singleton]
    rintro (mem | zero)
    · exact absurd (letter 0 mem) (by decide)
    · exact absurd zero (by decide)
  refine ⟨nonzero, ?_⟩
  have one : lines (replicate 1023 (ch 'a') ++ [nl]) = [replicate 1023 (ch 'a')] := by
    rw [lines_cons whole, lines_eq_nil not_mem_nil]
  have long : fitsBuf (replicate 1023 (ch 'a')) = false := by
    rw [fitsBuf, length_replicate]
    rfl
  have found : matchRe [ch 'a'] (replicate 1023 (ch 'a')) = true :=
    matchRe_self (ch 'a') (by decide) (by decide) (replicate 1022 (ch 'a'))
  rw [grep_eq _ _ _ nonzero, one, takeWhile_cons, long, matching_cons, if_pos found]
  exact nofun

end Xv6.User
