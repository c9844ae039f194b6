import WireModel.Proofs.Number.Text
import WireModel.Terminal.Style

/-!
# The pattern of a control sequence

A control sequence is what a pattern matches first. The pattern has parts that may be repeated or
left out, takes as much as it can with each of them, and gives up what it took last as long as the
rest does not match. `afterSequence` is this search: each part yields all that it may leave of a
text, in order of preference.

The function that measures a sequence does not search. It takes as much as it can once, and knows
what is given up if no final character follows: an introducer is never given up, since neither a
parameter nor the end of a sequence begins with one, and of the parameters all behind their last
digit are given up, and that digit then ends the sequence.

* **`Terminal.head?_afterStart`**: the first match of the pattern is what is measured.
* **`Terminal.strip_cons`**: so what is taken out of a text is what the pattern matches.
-/

namespace WireModel.Terminal

open Text

/-! ## The search -/

/-- What one character leaves. -/
def one (p : Char → Bool) : List Char → List (List Char)
  | c :: cs => if p c then [cs] else []
  | [] => []

/-- What a run of at most `n` characters leaves. More are preferred to fewer. -/
def upTo (p : Char → Bool) : Nat → List Char → List (List Char)
  | n + 1, c :: cs => if p c then upTo p n cs ++ [c :: cs] else [c :: cs]
  | _, cs => [cs]

/-- What at most `n` groups leave, each of which is a semicolon and up to four digits. -/
def groupsUpTo : Nat → List Char → List (List Char)
  | 0, cs => [cs]
  | n + 1, cs =>
    (one (· == ';') cs).flatMap (fun rest => (upTo isDigit 4 rest).flatMap (groupsUpTo n)) ++ [cs]

/-- What groups leave. No more of them than characters can be taken from a text. -/
def groups (cs : List Char) : List (List Char) := groupsUpTo cs.length cs

/-- What parameters leave: a group of one to four digits, and groups behind semicolons. -/
def afterParameters (cs : List Char) : List (List Char) :=
  ((one isDigit cs).flatMap (upTo isDigit 3)).flatMap groups

/-- What the rest of a sequence leaves behind the first character: introducers, parameters, which
may be left out, and a final character. -/
def afterStart (cs : List Char) : List (List Char) :=
  (upTo isIntroducer cs.length cs).flatMap fun body =>
    (afterParameters body ++ [body]).flatMap (one isFinal)

/-- What a control sequence leaves of a text. -/
def afterSequence (cs : List Char) : List (List Char) :=
  (one startsSequence cs).flatMap afterStart

/-! ## Runs -/

variable {p : Char → Bool} {f : List Char → List (List Char)}

/-- A run that can not be given up is taken as a whole. -/
theorem flatMap_upTo (hf : ∀ c cs, p c = true → f (c :: cs) = []) {n : Nat} {cs : List Char}
    (hn : cs.length ≤ n) : (upTo p n cs).flatMap f = f (cs.dropWhile p) := by
  induction cs generalizing n with
  | nil => cases n <;> simp [upTo]
  | cons c cs ih =>
    obtain ⟨n, rfl⟩ : ∃ m, n = m + 1 := ⟨n - 1, by simp at hn; omega⟩
    cases hc : p c with
    | true =>
      rw [upTo, if_pos hc, List.flatMap_append, ih (by simpa using hn),
        List.dropWhile_cons_of_pos hc, List.flatMap_singleton, hf c cs hc, List.append_nil]
    | false =>
      rw [upTo, if_neg (by simp [hc]), List.flatMap_singleton,
        List.dropWhile_cons_of_neg (by simp [hc])]

/-- A run of which the last character matches the rest is given up by this character at most. -/
theorem head?_flatMap_upTo (hf : ∀ c cs, p c = true → (f (c :: cs)).head? = some cs) (n : Nat)
    (cs : List Char) :
    let run := (cs.take n).takeWhile p
    ((upTo p n cs).flatMap f).head?
      = (f (cs.drop run.length)).head?.or
        (if run = [] then none else some (cs.drop run.length)) := by
  induction n generalizing cs with
  | zero => simp [upTo]
  | succ n ih =>
    cases cs with
    | nil => simp [upTo]
    | cons c cs =>
      cases hc : p c with
      | false => simp [upTo, hc]
      | true =>
        have hrest := ih cs
        simp only [upTo, hc, if_true, List.flatMap_append, List.flatMap_singleton,
          List.head?_append, hrest, hf c cs hc, List.take_succ_cons, List.takeWhile_cons,
          List.length_cons, List.drop_succ_cons, reduceCtorEq, if_false]
        cases (f (cs.drop ((cs.take n).takeWhile p).length)).head? with
        | some rest => rfl
        | none =>
          by_cases hrun : (cs.take n).takeWhile p = []
          · simp [hrun]
          · simp [hrun]

/-! ## What is given up -/

theorem upToLastDigit_append (xs ys : List Char) :
    upToLastDigit (xs ++ ys)
      = if upToLastDigit ys = [] then upToLastDigit xs else xs ++ upToLastDigit ys := by
  simp only [upToLastDigit, List.reverse_append, List.dropWhile_append, List.reverse_eq_nil_iff,
    List.isEmpty_iff]
  split
  · rfl
  · rw [List.reverse_append, List.reverse_reverse]

theorem upToLastDigit_digits {digits : List Char} (h : ∀ c ∈ digits, isDigit c = true) :
    upToLastDigit digits = digits := by
  rcases List.eq_nil_or_concat digits with rfl | ⟨init, c, rfl⟩
  · rfl
  · have hc : c ≠ ';' := by
      rintro rfl
      exact absurd (h ';' (by simp)) (by decide)
    simp [upToLastDigit, hc]

/-- A semicolon is given up unless a digit follows it. -/
theorem upToLastDigit_cons {digits : List Char} (h : ∀ c ∈ digits, isDigit c = true) :
    upToLastDigit (';' :: digits) = if digits = [] then [] else ';' :: digits := by
  have hlast := upToLastDigit_append [';'] digits
  rwa [upToLastDigit_digits h] at hlast

/-- What is left when `given` is taken and a final character behind it, or when there is none and
what is behind the last digit of `given` is given up. -/
def ending (given cs : List Char) : Option (List Char) :=
  (one isFinal (cs.drop given.length)).head?.or
    (if upToLastDigit given = [] then none else some (cs.drop (upToLastDigit given).length))

theorem ending_nil (cs : List Char) : ending [] cs = (one isFinal cs).head? := by
  simp [ending, upToLastDigit]

/-- What is taken last is given up first. -/
theorem ending_append (xs ys cs : List Char) :
    ending (xs ++ ys) cs
      = (ending ys (cs.drop xs.length)).or
        (if upToLastDigit xs = [] then none else some (cs.drop (upToLastDigit xs).length)) := by
  rw [ending, ending, upToLastDigit_append, List.length_append, ← List.drop_drop, Option.or_assoc]
  by_cases hys : upToLastDigit ys = []
  · simp [hys]
  · simp [hys, List.drop_drop]

/-! ## Groups -/

theorem one_of_ne {c d : Char} (h : c ≠ d) (cs : List Char) : one (· == d) (c :: cs) = [] := by
  simp [one, h]

theorem groupsUpTo_of_ne {c : Char} (hc : c ≠ ';') (n : Nat) (cs : List Char) :
    groupsUpTo n (c :: cs) = [c :: cs] := by
  cases n with
  | zero => rfl
  | succ n => rw [groupsUpTo, one_of_ne hc, List.flatMap_nil, List.nil_append]

theorem isFinal_of_isDigit {c : Char} (h : isDigit c = true) : isFinal c = true := by
  simp [isFinal, h]

/-- A digit that is given up is the final character. -/
theorem head?_groupsUpTo_digit {c : Char} (hc : isDigit c = true) (n : Nat) (cs : List Char) :
    ((groupsUpTo n (c :: cs)).flatMap (one isFinal)).head? = some cs := by
  have hne : c ≠ ';' := by
    rintro rfl
    exact absurd hc (by decide)
  rw [groupsUpTo_of_ne hne, List.flatMap_singleton, one, if_pos (isFinal_of_isDigit hc),
    List.head?_cons]

theorem isDigit_of_mem_digitGroup {cs : List Char} : ∀ c ∈ digitGroup cs, isDigit c = true :=
  fun _ hc => List.mem_takeWhile_imp hc

theorem head?_groupsUpTo {n : Nat} {cs : List Char} (hn : cs.length ≤ n) :
    ((groupsUpTo n cs).flatMap (one isFinal)).head? = ending (moreParameters cs) cs := by
  induction n generalizing cs with
  | zero =>
    obtain rfl := List.eq_nil_of_length_eq_zero (Nat.le_zero.mp hn)
    rw [moreParameters, ending_nil, groupsUpTo, List.flatMap_singleton]
  | succ n ih =>
    cases cs with
    | nil => rw [moreParameters, ending_nil]; rfl
    | cons c cs =>
      by_cases hc : c = ';'
      · subst hc
        have hrest : (cs.drop (digitGroup cs).length).length ≤ n := by
          rw [List.length_drop]
          simp only [List.length_cons] at hn
          omega
        have hgroup := head?_flatMap_upTo (p := isDigit)
          (f := fun rest => (groupsUpTo n rest).flatMap (one isFinal))
          (fun d ds hd => head?_groupsUpTo_digit hd n ds) 4 cs
        have htaken : moreParameters (';' :: cs)
            = (';' :: digitGroup cs) ++ moreParameters (cs.drop (digitGroup cs).length) := by
          rw [moreParameters, if_pos rfl]
        -- a semicolon is not a final character, so the last resort is a digit of this group
        have hsearch : (groupsUpTo (n + 1) (';' :: cs)).flatMap (one isFinal)
            = (upTo isDigit 4 cs).flatMap fun rest =>
              (groupsUpTo n rest).flatMap (one isFinal) := by
          rw [groupsUpTo, List.flatMap_append, List.flatMap_assoc]
          simp [one, show isFinal ';' = false by decide, List.flatMap_assoc]
        rw [hsearch, hgroup, htaken, ending_append, upToLastDigit_cons isDigit_of_mem_digitGroup]
        show ((groupsUpTo n (cs.drop (digitGroup cs).length)).flatMap (one isFinal)).head?.or
          (if digitGroup cs = [] then none else some (cs.drop (digitGroup cs).length)) = _
        rw [ih hrest, List.length_cons, List.drop_succ_cons]
        by_cases hnone : digitGroup cs = [] <;> simp [hnone]
      · rw [moreParameters, if_neg hc, ending_nil, groupsUpTo_of_ne hc, List.flatMap_singleton]

/-! ## The first match -/

/-- No part of the pattern behind the introducers begins with one. -/
theorem flatMap_afterParameters_introducer {c : Char} (hc : isIntroducer c = true)
    (cs : List Char) : (afterParameters (c :: cs) ++ [c :: cs]).flatMap (one isFinal) = [] := by
  simp only [isIntroducer, Bool.or_eq_true, beq_iff_eq] at hc
  obtain (((((rfl | rfl) | rfl) | rfl) | rfl) | rfl) | rfl := hc <;> rfl

/-- The parameters and the final character, which may be all there is. -/
theorem head?_afterParameters (cs : List Char) :
    ((afterParameters cs ++ [cs]).flatMap (one isFinal)).head? = ending (parameters cs) cs := by
  cases cs with
  | nil => rfl
  | cons c cs =>
    cases hc : isDigit c with
    | false =>
      have hnone : parameters (c :: cs) = [] := by simp [parameters, digitGroup, hc]
      rw [hnone, ending_nil]
      simp [afterParameters, one, hc]
    | true =>
      have hgroup := head?_flatMap_upTo (p := isDigit)
        (f := fun rest => (groups rest).flatMap (one isFinal))
        (fun d ds hd => head?_groupsUpTo_digit hd _ ds) 3 cs
      have hrun : ∀ d ∈ c :: (cs.take 3).takeWhile isDigit, isDigit d = true :=
        List.forall_mem_cons.mpr ⟨hc, fun _ hd => List.mem_takeWhile_imp hd⟩
      have htaken : parameters (c :: cs) = (c :: (cs.take 3).takeWhile isDigit)
          ++ moreParameters (cs.drop ((cs.take 3).takeWhile isDigit).length) := by
        simp [parameters, digitGroup, hc]
      have hsearch : (afterParameters (c :: cs)).flatMap (one isFinal)
          = (upTo isDigit 3 cs).flatMap fun rest => (groups rest).flatMap (one isFinal) := by
        simp [afterParameters, one, hc, List.flatMap_assoc]
      -- the last resort is to leave the parameters out, and their first digit is then final
      have hleft : one isFinal (c :: cs) = [cs] := by rw [one, if_pos (isFinal_of_isDigit hc)]
      rw [List.flatMap_append, List.head?_append, hsearch, hgroup, List.flatMap_singleton, hleft,
        htaken, ending_append, upToLastDigit_digits hrun, groups, head?_groupsUpTo le_rfl,
        List.length_cons, List.drop_succ_cons, List.head?_cons, if_neg (List.cons_ne_nil _ _),
        Option.or_assoc]
      by_cases hnone : (cs.take 3).takeWhile isDigit = [] <;> simp [hnone]

/-- Parameters begin with a digit, so not all of them are given up. -/
theorem upToLastDigit_parameters {cs : List Char} (h : parameters cs ≠ []) :
    upToLastDigit (parameters cs) ≠ [] := by
  rw [parameters] at h ⊢
  split_ifs at h ⊢ with hgroup
  · exact absurd rfl h
  · rw [upToLastDigit_append, upToLastDigit_digits isDigit_of_mem_digitGroup]
    split_ifs
    · simpa using hgroup
    · simp_all

theorem drop_takeWhile_length (p : Char → Bool) (cs : List Char) :
    cs.drop (cs.takeWhile p).length = cs.dropWhile p :=
  calc cs.drop (cs.takeWhile p).length
      = (cs.takeWhile p ++ cs.dropWhile p).drop (cs.takeWhile p).length := by
        rw [List.takeWhile_append_dropWhile]
    _ = cs.dropWhile p := List.drop_left

theorem head?_one (p : Char → Bool) (cs : List Char) :
    (one p cs).head? = (cs.head?.filter p).map fun _ => cs.drop 1 := by
  cases cs with
  | nil => rfl
  | cons c cs => cases hc : p c <;> simp [one, hc]

/-- What is measured is what `ending` takes. -/
theorem map_drop_sequenceLength? (cs : List Char) :
    (sequenceLength? cs).map (cs.drop ·)
      = ending (parameters (cs.dropWhile isIntroducer)) (cs.dropWhile isIntroducer) := by
  rw [sequenceLength?, ending, head?_one]
  simp only [drop_takeWhile_length]
  have hdrop (k : Nat) : cs.drop ((cs.takeWhile isIntroducer).length + k)
      = (cs.dropWhile isIntroducer).drop k := by
    rw [← List.drop_drop, drop_takeWhile_length]
  split
  · next hfinal =>
    rw [hfinal, Option.map_some, Option.map_some, Option.some_or, Nat.add_assoc, hdrop,
      List.drop_drop]
  · next hfinal =>
    rw [hfinal, Option.map_none, Option.none_or]
    by_cases hnone : parameters (cs.dropWhile isIntroducer) = []
    · simp [hnone, upToLastDigit]
    · simp [hnone, upToLastDigit_parameters hnone, hdrop]

/-- **The first match of the pattern is what is measured.** -/
theorem head?_afterStart (cs : List Char) :
    (afterStart cs).head? = (sequenceLength? cs).map (cs.drop ·) := by
  have hintroducers := flatMap_upTo (p := isIntroducer)
    (f := fun body => (afterParameters body ++ [body]).flatMap (one isFinal))
    (fun _ rest hc => flatMap_afterParameters_introducer hc rest) (Nat.le_refl cs.length)
  rw [afterStart, hintroducers, head?_afterParameters, map_drop_sequenceLength?]

/-! ## Taking sequences out -/

/-- What belongs to a sequence is passed over. -/
theorem strip_drop (n : Nat) (cs : List Char) : strip n cs = strip 0 (cs.drop n) := by
  induction n generalizing cs with
  | zero => rw [List.drop_zero]
  | succ n ih =>
    cases cs with
    | nil => rfl
    | cons c cs => rw [strip, ih, List.drop_succ_cons]

/-- **What is taken out is what the pattern matches.** -/
theorem strip_cons (c : Char) (cs : List Char) :
    strip 0 (c :: cs) = (afterSequence (c :: cs)).head?.elim (c :: strip 0 cs) (strip 0) := by
  rw [strip, afterSequence, one]
  cases startsSequence c with
  | false => rfl
  | true =>
    rw [if_pos rfl, if_pos rfl, List.flatMap_singleton, head?_afterStart]
    cases sequenceLength? cs with
    | none => rfl
    | some n => exact strip_drop n cs

end WireModel.Terminal
