namespace Unpack.Text

namespace Glob

-- What one step of a pattern matches: one character, any characters, or any
-- whole path components. A set is given by ranges.
inductive Step where
  | anyOne
  | literal (c : Char)
  | within (ranges : List (Char × Char))
  | except (ranges : List (Char × Char))
  | anyRun
  | anyComponents
  deriving Repr, DecidableEq

def inRanges (c : Char) (ranges : List (Char × Char)) : Bool :=
  ranges.any fun range => range.1 ≤ c ∧ c ≤ range.2

-- Whether a step matches the one character `c`.
def Step.admits (c : Char) : Step → Bool
  | .anyOne => true
  | .literal expected => c = expected
  | .within ranges => inRanges c ranges
  | .except ranges => !inRanges c ranges
  | .anyRun | .anyComponents => false

-- The members of a set: characters and ranges such as `a-z`.
def ranges : List Char → List (Char × Char)
  | low :: '-' :: high :: rest => (low, high) :: ranges rest
  | c :: rest => (c, c) :: ranges rest
  | [] => []

-- What stands before the first closing bracket, and what follows it.
def untilBracket : List Char → Option (List Char × List Char)
  | [] => none
  | ']' :: rest => some ([], rest)
  | c :: rest => (untilBracket rest).map fun (inside, after) => (c :: inside, after)

-- The inside of a set. Its first character is a member even if it is a bracket.
def members : List Char → Option (List Char × List Char)
  | [] => none
  | c :: rest => (untilBracket rest).map fun (inside, after) => (c :: inside, after)

theorem length_untilBracket {s inside after : List Char}
    (h : untilBracket s = some (inside, after)) : after.length < s.length := by
  induction s generalizing inside with
  | nil => simp [untilBracket] at h
  | cons c rest ih =>
      by_cases hc : c = ']'
      · subst hc
        simp only [untilBracket, Option.some.injEq, Prod.mk.injEq] at h
        simp [← h.2]
      · simp only [untilBracket, Option.map_eq_some_iff, Prod.exists, Prod.mk.injEq] at h
        obtain ⟨_, _, hr, _, rfl⟩ := h
        have := ih hr
        simp only [List.length_cons]
        omega

theorem length_members {s inside after : List Char}
    (h : members s = some (inside, after)) : after.length < s.length := by
  cases s with
  | nil => simp [members] at h
  | cons c rest =>
      simp only [members, Option.map_eq_some_iff, Prod.exists, Prod.mk.injEq] at h
      obtain ⟨_, _, hr, _, rfl⟩ := h
      have := length_untilBracket hr
      simp only [List.length_cons]
      omega

-- The steps of a pattern. Two asterisks must be a whole path component, and
-- more than two are refused. `atStart` tells that a component begins here.
def parse (atStart : Bool) : List Char → Option (List Step)
  | [] => some []
  | '?' :: rest => (parse false rest).map (.anyOne :: ·)
  | '*' :: '*' :: '*' :: _ => none
  | '*' :: '*' :: '/' :: rest =>
      if atStart then (parse true rest).map (.anyComponents :: ·) else none
  | ['*', '*'] => if atStart then some [.anyComponents] else none
  | '*' :: '*' :: _ => none
  | '*' :: rest => (parse false rest).map (.anyRun :: ·)
  | '[' :: '!' :: rest =>
      match h : members rest with
      | some (inside, after) =>
          have := length_members h
          (parse false after).map (.except (ranges inside) :: ·)
      | none => none
  | '[' :: rest =>
      match h : members rest with
      | some (inside, after) =>
          have := length_members h
          (parse false after).map (.within (ranges inside) :: ·)
      | none => none
  | c :: rest => (parse (c = '/') rest).map (.literal c :: ·)
termination_by pattern => pattern.length
decreasing_by all_goals (simp only [List.length_cons]; omega)

-- How steps fare on a text. They may run out of text, and then do so on all of
-- its suffixes.
inductive Verdict where
  | matched
  | mismatch
  | exhausted
  deriving Repr, DecidableEq

-- Leave out more and more of a text, stopping only after the given characters
-- and at the end, until the rest of a pattern does not mismatch.
def skip (stops : Char → Bool) (follow : List Char → Verdict) : List Char → Verdict
  | [] => follow []
  | c :: text =>
      if stops c then
        match follow text with
        | .mismatch => skip stops follow text
        | verdict => verdict
      else
        skip stops follow text

-- The same, beginning with the whole text.
def skipFrom (stops : Char → Bool) (follow : List Char → Verdict) (text : List Char) : Verdict :=
  match follow text with
  | .mismatch => skip stops follow text
  | verdict => verdict

def run : List Step → List Char → Verdict
  | [], [] => .matched
  | [], _ :: _ => .mismatch
  | .anyRun :: steps, text => skipFrom (fun _ => true) (run steps) text
  | .anyComponents :: steps, text => skipFrom (· = '/') (run steps) text
  | _ :: _, [] => .exhausted
  | step :: steps, c :: text => if step.admits c then run steps text else .mismatch

end Glob

-- Whether a glob pattern matches the whole of a text. An invalid pattern
-- matches nothing.
def globMatches (pattern text : String) : Bool :=
  match Glob.parse true pattern.toList with
  | some steps => Glob.run steps text.toList = .matched
  | none => false

end Unpack.Text
