import Zdeceptron.Lexer.Token
import Zdeceptron.Library.EditScripts
import Zdeceptron.Lsp.Lines

/-!
# Formatting edits

The edits that turn a document into its canonical layout.  The difference of the two texts is
taken over whole lines, and each replaced run of lines is narrowed to the bytes that differ.

* `edits_rebuild`: the edits are ascending and disjoint, lie between characters and rebuild the
  new text.
-/

namespace Zdeceptron
namespace Lsp

open Library Library.Utf8 Library.EditScripts
open Lexer (Span)

section Script

variable {α : Type} [DecidableEq α]

def longestScript : Nat := 1024

def window (turn : Nat) (furthest : Int → Int) : Int → Int :=
  fun k => if -turn ≤ k ∧ k ≤ turn then furthest k else 0

def diagonals (turn : Nat) : List Int :=
  (List.range (turn + 1)).map (fun i : Nat => -(turn : Int) + 2 * (i : Int))

def sweep (old new : List α) (turn : Nat) : List Int → (Int → Int) → Option (Int → Int)
  | [], furthest => some furthest
  | k :: ks, furthest =>
      let x := reach (same old new) old.length turn k furthest
      if (old.length : Int) ≤ x ∧ (new.length : Int) ≤ x - k then none
      else sweep old new turn ks (Function.update furthest k x)

def keepBack (previousX previousY : Int) : Nat → Int → Int → List Step → Int × List Step
  | 0, x, _, steps => (x, steps)
  | fuel + 1, x, y, steps =>
      if previousX < x ∧ previousY < y then
        keepBack previousX previousY fuel (x - 1) (y - 1) (.keep :: steps)
      else (x, steps)

/-- The script the saved rounds describe, read back from a point.  The steps are in the order
of the script. -/
def walkBack (trace : List (Int → Int)) : Nat → Int → Int → List Step → List Step
  | 0, x, y, steps => (keepBack 0 0 x.toNat x y steps).2
  | turn + 1, x, y, steps =>
      let value := trace.getD (turn + 1) (fun _ => 0)
      let k := x - y
      let previousK := if fromAbove (turn + 1 : Nat) k value then k + 1 else k - 1
      let previousX := value previousK
      let previousY := previousX - previousK
      let walked := keepBack previousX previousY (x - previousX).toNat x y steps
      walkBack trace turn previousX previousY
        ((if walked.1 = previousX then .add else .drop) :: walked.2)

def search (old new : List α) :
    Nat → Nat → (Int → Int) → List (Int → Int) → Option (List Step)
  | 0, _, _, _ => none
  | left + 1, turn, furthest, trace =>
      let trace := trace ++ [window turn furthest]
      match sweep old new turn (diagonals turn) furthest with
      | none => some (walkBack trace turn old.length new.length [])
      | some furthest => search old new left (turn + 1) furthest trace

/-- The shortest script that turns `old` into `new`, or none if every one is too long. -/
def script (old new : List α) : Option (List Step) :=
  search old new (min (old.length + new.length) longestScript + 1) 0 (fun _ => 0) []

end Script

section Edits

/-- One replacement: the byte range to overwrite, and the text to put there. -/
structure Edit where
  at' : Span
  text : List Char
deriving DecidableEq

def span (start stop : Nat) : Span := ⟨saturatingU32 start, saturatingU32 stop⟩

def lines : List Char → List (List Char)
  | [] => []
  | c :: cs =>
      if c = '\n' then [c] :: lines cs
      else
        match lines cs with
        | [] => [[c]]
        | line :: rest => (c :: line) :: rest

def closed (run : Option (Nat × List Char)) (at' : Nat) : List Edit :=
  match run with
  | none => []
  | some (start, text) => [⟨span start at', text⟩]

def grouped (old new : List (List Char)) (run : Option (Nat × List Char)) (i j at' : Nat) :
    List Step → List Edit
  | [] => closed run at'
  | .keep :: steps =>
      closed run at' ++
        grouped old new none (i + 1) (j + 1) (at' + ((old[i]?).map size).getD 0) steps
  | .drop :: steps =>
      grouped old new (some (run.getD (at', []))) (i + 1) j
        (at' + ((old[i]?).map size).getD 0) steps
  | .add :: steps =>
      let (start, text) := run.getD (at', [])
      grouped old new (some (start, text ++ (new[j]?).getD [])) i (j + 1) at' steps

def isCharBoundary (text : List Char) (offset : Nat) : Bool := (upTo text offset).isSome

def pullBack (passes : Nat → Bool) : Nat → Nat
  | 0 => 0
  | count + 1 => if passes (count + 1) then count + 1 else pullBack passes count

def agreeing {α : Type} [DecidableEq α] (left right : List α) : Nat :=
  ((left.zip right).takeWhile (fun pair => pair.1 = pair.2)).length

def narrowed (before : List Char) (edit : Edit) : Edit :=
  match slice before edit.at'.start edit.at'.stop with
  | none => edit
  | some old =>
      let new := edit.text
      let head := pullBack (fun count => isCharBoundary old count && isCharBoundary new count)
        (agreeing (bytes old) (bytes new))
      let common := min (size old) (size new) - head
      let tail := pullBack
        (fun count => isCharBoundary old (size old - count) &&
          isCharBoundary new (size new - count))
        (agreeing ((bytes old).reverse.take common) ((bytes new).reverse.take common))
      ⟨span (edit.at'.start + head) (edit.at'.stop - tail),
        (slice new head (size new - tail)).getD []⟩

/-- The edits that turn `before` into `after`. -/
def edits (before after : List Char) : List Edit :=
  let old := lines before
  let new := lines after
  let head := agreeing old new
  let tail := agreeing (old.reverse.take (min old.length new.length - head))
    (new.reverse.take (min old.length new.length - head))
  let oldMiddle := (old.take (old.length - tail)).drop head
  let newMiddle := (new.take (new.length - tail)).drop head
  let start := ((old.take head).map size).sum
  let stop := start + (oldMiddle.map size).sum
  let replacements :=
    match script oldMiddle newMiddle with
    | some steps => grouped oldMiddle newMiddle none 0 0 start steps
    | none => [⟨span start stop, newMiddle.flatten⟩]
  (replacements.map (narrowed before)).filter
    (fun edit => edit.at'.start != edit.at'.stop || !edit.text.isEmpty)

end Edits

section Rounds

variable {α : Type} [DecidableEq α] {old new : List α}

def beforeRound (old new : List α) : Nat → Int → Int
  | 0 => fun _ => 0
  | turn + 1 => furthest (same old new) old.length turn

theorem furthest_eq (old new : List α) (turn : Nat) (k : Int) :
    furthest (same old new) old.length turn k =
      if OnRound turn k then reach (same old new) old.length turn k (beforeRound old new turn)
      else beforeRound old new turn k := by
  cases turn with
  | zero => rfl
  | succ turn => rfl

theorem mem_diagonals {turn : Nat} {k : Int} : k ∈ diagonals turn ↔ OnRound turn k := by
  rw [diagonals, List.mem_map]
  constructor
  · rintro ⟨i, hi, rfl⟩
    rw [List.mem_range] at hi
    exact ⟨by omega, by omega, by omega⟩
  · rintro ⟨hlow, hhigh, hparity⟩
    refine ⟨((k + turn) / 2).toNat, List.mem_range.mpr ?_, ?_⟩ <;> omega

theorem reach_congr {same : Int → Int → Bool} {fuel : Nat} {d k : Int} {f g : Int → Int}
    (hbelow : f (k - 1) = g (k - 1)) (habove : f (k + 1) = g (k + 1)) :
    reach same fuel d k f = reach same fuel d k g := by
  rw [reach, reach, start, start, fromAbove, fromAbove, hbelow, habove]

theorem sweep_cases {turn : Nat} {ks : List Int} {f g : Int → Int}
    (hparity : ∀ k ∈ ks, (k + turn) % 2 = 0)
    (hreads : ∀ k ∈ ks, f (k - 1) = g (k - 1) ∧ f (k + 1) = g (k + 1)) :
    (sweep old new turn ks f = none ∧ ∃ k ∈ ks,
      (old.length : Int) ≤ reach (same old new) old.length turn k g ∧
      (new.length : Int) ≤ reach (same old new) old.length turn k g - k) ∨
    (∃ f', sweep old new turn ks f = some f' ∧
      (∀ k ∈ ks, ¬((old.length : Int) ≤ reach (same old new) old.length turn k g ∧
        (new.length : Int) ≤ reach (same old new) old.length turn k g - k)) ∧
      ∀ k, f' k = if k ∈ ks then reach (same old new) old.length turn k g else f k) := by
  induction ks generalizing f with
  | nil => exact .inr ⟨f, rfl, by simp, by simp⟩
  | cons k ks ih =>
      obtain ⟨hbelow, habove⟩ := hreads k List.mem_cons_self
      have hreach : reach (same old new) old.length turn k f =
          reach (same old new) old.length turn k g := reach_congr hbelow habove
      rw [sweep, hreach]
      split_ifs with hend
      · exact .inl ⟨rfl, k, List.mem_cons_self, hend⟩
      · have hk := hparity k List.mem_cons_self
        have hupdate : ∀ k' ∈ ks,
            Function.update f k (reach (same old new) old.length turn k g) (k' - 1) =
              g (k' - 1) ∧
            Function.update f k (reach (same old new) old.length turn k g) (k' + 1) =
              g (k' + 1) := by
          intro k' hk'
          have hk'' := hparity k' (List.mem_cons_of_mem k hk')
          obtain ⟨hbelow', habove'⟩ := hreads k' (List.mem_cons_of_mem k hk')
          rw [Function.update_of_ne (by omega), Function.update_of_ne (by omega)]
          exact ⟨hbelow', habove'⟩
        rcases ih (fun k' hk' => hparity k' (List.mem_cons_of_mem k hk')) hupdate with
          ⟨hnone, k', hk', hfound⟩ | ⟨f', hsome, hnot, hvalues⟩
        · exact .inl ⟨hnone, k', List.mem_cons_of_mem k hk', hfound⟩
        · refine .inr ⟨f', hsome, ?_, ?_⟩
          · intro k' hk'
            rcases List.mem_cons.mp hk' with rfl | hk'
            · exact hend
            · exact hnot k' hk'
          · intro k'
            rw [hvalues k']
            by_cases hmem : k' ∈ ks
            · rw [if_pos hmem, if_pos (List.mem_cons_of_mem k hmem)]
            · rw [if_neg hmem]
              by_cases heq : k' = k
              · subst heq
                rw [Function.update_self, if_pos List.mem_cons_self]
              · rw [Function.update_of_ne heq, if_neg (by simp [heq, hmem])]

theorem sweep_round (old new : List α) (turn : Nat) :
    (sweep old new turn (diagonals turn) (beforeRound old new turn) = none ∧
      Done (same old new) old.length new.length old.length turn) ∨
    (sweep old new turn (diagonals turn) (beforeRound old new turn) =
        some (beforeRound old new (turn + 1)) ∧
      ¬Done (same old new) old.length new.length old.length turn) := by
  have hfurthest : ∀ k, OnRound turn k → furthest (same old new) old.length turn k =
      reach (same old new) old.length turn k (beforeRound old new turn) := by
    intro k hk
    rw [furthest_eq, if_pos hk]
  rcases @sweep_cases _ _ old new turn (diagonals turn) (beforeRound old new turn)
    (beforeRound old new turn) (fun k hk => (mem_diagonals.mp hk).2.2) (fun k hk => ⟨rfl, rfl⟩) with
    ⟨hnone, k, hk, hfound⟩ | ⟨f', hsome, hnot, hvalues⟩
  · have hon := mem_diagonals.mp hk
    refine .inl ⟨hnone, k, hon, ?_⟩
    rw [hfurthest k hon]
    exact hfound
  · refine .inr ⟨?_, ?_⟩
    · rw [hsome]
      congr 1
      funext k
      rw [hvalues k]
      change _ = furthest (same old new) old.length turn k
      rw [furthest_eq]
      simp only [mem_diagonals]
    · rintro ⟨k, hon, hfound⟩
      rw [hfurthest k hon] at hfound
      exact hnot k (mem_diagonals.mpr hon) hfound

def rounds (old new : List α) (count : Nat) : List (Int → Int) :=
  (List.range count).map (fun turn => window turn (beforeRound old new turn))

theorem search_cases (old new : List α) (left turn : Nat)
    (hearlier : ∀ d < turn, ¬Done (same old new) old.length new.length old.length d) :
    (∃ d, d < turn + left ∧ Done (same old new) old.length new.length old.length d ∧
      (∀ d' < d, ¬Done (same old new) old.length new.length old.length d') ∧
      search old new left turn (beforeRound old new turn) (rounds old new turn) =
        some (walkBack (rounds old new (d + 1)) d old.length new.length [])) ∨
    (search old new left turn (beforeRound old new turn) (rounds old new turn) = none ∧
      ∀ d < turn + left, ¬Done (same old new) old.length new.length old.length d) := by
  induction left generalizing turn with
  | zero => exact .inr ⟨rfl, hearlier⟩
  | succ left ih =>
      have htrace : rounds old new turn ++ [window turn (beforeRound old new turn)] =
          rounds old new (turn + 1) := by
        rw [rounds, rounds, List.range_succ, List.map_append, List.map_singleton]
      rw [search, htrace]
      rcases sweep_round old new turn with ⟨hnone, hdone⟩ | ⟨hsome, hnot⟩
      · rw [hnone]
        exact .inl ⟨turn, by omega, hdone, hearlier, rfl⟩
      · rw [hsome]
        have hnext := ih (turn + 1) (by
          intro d hd
          rcases Nat.lt_succ_iff_lt_or_eq.mp hd with hlt | rfl
          · exact hearlier d hlt
          · exact hnot)
        rw [show turn + 1 + left = turn + (left + 1) by omega] at hnext
        exact hnext

end Rounds

section WalkBack

variable {α : Type} [DecidableEq α] {old new : List α}

theorem keepBack_eq {previousX previousY : Int} {count fuel : Nat} {x y : Int}
    {steps : List Step} (hfuel : count ≤ fuel) (hx : previousX ≤ x - count)
    (hy : previousY ≤ y - count) (hstop : previousX = x - count ∨ previousY = y - count) :
    keepBack previousX previousY fuel x y steps =
      (x - count, List.replicate count .keep ++ steps) := by
  induction count generalizing fuel x y steps with
  | zero =>
      cases fuel with
      | zero => simp [keepBack]
      | succ fuel =>
          rw [keepBack, if_neg (by omega)]
          simp
  | succ count ih =>
      obtain ⟨fuel, rfl⟩ : ∃ f, fuel = f + 1 := ⟨fuel - 1, by omega⟩
      rw [keepBack, if_pos (by omega), ih (by omega) (by omega) (by omega) (by omega),
        List.replicate_succ', List.append_assoc, List.singleton_append]
      congr 1
      push_cast
      omega

theorem getD_rounds {count turn : Nat} (h : turn < count) :
    (rounds old new count).getD turn (fun _ => 0) = window turn (beforeRound old new turn) := by
  rw [rounds, List.getD_eq_getElem?_getD, List.getElem?_map, List.getElem?_range h]
  rfl

theorem fromAbove_window {turn : Nat} {k : Int} (h : OnRound (turn + 1) k) :
    fromAbove (turn + 1 : Nat) k (window (turn + 1) (furthest (same old new) old.length turn)) =
      fromAbove (turn + 1 : Nat) k (furthest (same old new) old.length turn) := by
  obtain ⟨hlow, hhigh, -⟩ := h
  rw [fromAbove, fromAbove]
  by_cases hfirst : k = -((turn + 1 : Nat) : Int)
  · simp [hfirst]
  · by_cases hlast : k = ((turn + 1 : Nat) : Int)
    · simp [hlast]
    · rw [window, window, if_pos (by omega), if_pos (by omega)]

theorem walkBack_path {count turn : Nat} (hcount : turn < count) {k : Int} {steps : List Step}
    (hk : OnRound turn k) (hx : furthest (same old new) old.length turn k ≤ old.length)
    (hy : furthest (same old new) old.length turn k - k ≤ new.length) :
    ∃ s, walkBack (rounds old new count) turn (furthest (same old new) old.length turn k)
        (furthest (same old new) old.length turn k - k) steps = s ++ steps ∧
      Path (same old new) old.length new.length turn (furthest (same old new) old.length turn k)
        (furthest (same old new) old.length turn k - k) s := by
  induction turn generalizing k steps with
  | zero =>
      obtain ⟨hlow, hhigh, -⟩ := hk
      obtain rfl : k = 0 := by omega
      have hnonneg := (@furthest_nonneg (same old new) old.length 0 0 (by decide)).1
      refine ⟨_, ?_, path_zero⟩
      rw [walkBack, @keepBack_eq _ _ ((furthest (same old new) old.length 0 0).toNat) _ _ _ _
        (Nat.le_refl _) (by omega) (by omega) (by omega)]
  | succ turn ih =>
      have hslides := @furthest_slides (same old new) old.length _ _ hk
      have hle := @le_slide (same old new) old.length
        (start (turn + 1 : Nat) k (furthest (same old new) old.length turn))
        (start (turn + 1 : Nat) k (furthest (same old new) old.length turn) - k)
      rw [← hslides] at hle
      have hwindow : (rounds old new count).getD (turn + 1) (fun _ => 0) =
          window (turn + 1) (furthest (same old new) old.length turn) := getD_rounds hcount
      rw [walkBack]
      simp only [Int.sub_sub_self]
      rw [hwindow, fromAbove_window hk]
      rcases @start_cases (same old new) old.length _ _ hk with
        ⟨habove, hon, hstart, -⟩ | ⟨habove, hon, hstart, -⟩
      · have hvalue : window (turn + 1) (furthest (same old new) old.length turn) (k + 1) =
            furthest (same old new) old.length turn (k + 1) := by
          obtain ⟨hlow, hhigh, -⟩ := hon
          rw [window, if_pos (by push_cast; omega)]
        rw [if_pos habove, hvalue, @keepBack_eq _ _
          ((furthest (same old new) old.length (turn + 1) k -
            start (turn + 1 : Nat) k (furthest (same old new) old.length turn)).toNat) _ _ _ _
          (by omega) (by omega) (by omega) (by omega)]
        simp only
        rw [if_pos (by omega)]
        obtain ⟨s, hwalk, hpath⟩ := @ih (by omega) (k + 1)
          (lastSteps (same old new) old.length turn k ++ steps) hon (by omega)
          (by omega)
        refine ⟨s ++ lastSteps (same old new) old.length turn k, ?_, ?_⟩
        · rw [List.append_assoc, ← hwalk, lastSteps, if_pos habove]
          rfl
        · refine exists_path_succ hk hx hy (fun k' _ hk' => ?_)
          rw [if_pos habove] at hk'
          rwa [hk']
      · have hvalue : window (turn + 1) (furthest (same old new) old.length turn) (k - 1) =
            furthest (same old new) old.length turn (k - 1) := by
          obtain ⟨hlow, hhigh, -⟩ := hon
          rw [window, if_pos (by push_cast; omega)]
        have hnot : ¬fromAbove (turn + 1 : Nat) k
            (furthest (same old new) old.length turn) = true := by
          rw [habove]
          decide
        rw [if_neg hnot, hvalue, @keepBack_eq _ _
          ((furthest (same old new) old.length (turn + 1) k -
            start (turn + 1 : Nat) k (furthest (same old new) old.length turn)).toNat) _ _ _ _
          (by omega) (by omega) (by omega) (by omega)]
        simp only
        rw [if_neg (by omega)]
        obtain ⟨s, hwalk, hpath⟩ := @ih (by omega) (k - 1)
          (lastSteps (same old new) old.length turn k ++ steps) hon (by omega)
          (by omega)
        refine ⟨s ++ lastSteps (same old new) old.length turn k, ?_, ?_⟩
        · rw [List.append_assoc, ← hwalk, lastSteps, if_neg hnot]
          rfl
        · refine exists_path_succ hk hx hy (fun k' _ hk' => ?_)
          rw [if_neg hnot] at hk'
          rwa [hk']

variable {steps : List Step}

theorem script_found (h : script old new = some steps) :
    Runs steps old new ∧
      ∀ d < changes steps, ¬Done (same old new) old.length new.length old.length d := by
  rw [script] at h
  rcases search_cases old new (min (old.length + new.length) longestScript + 1) 0
    (fun d hd => absurd hd (Nat.not_lt_zero d)) with
    ⟨d, -, ⟨k, hk, hold, hnew⟩, hfirst, hfound⟩ | ⟨hnone, -⟩
  · obtain ⟨hn, rfl⟩ := arrives (inside_same old new) hfirst hk hold hnew
    obtain ⟨s, hwalk, hpath⟩ := @walkBack_path _ _ old new (d + 1) _ (Nat.lt_succ_self d) _ [] hk
      (by omega) (by omega)
    rw [hn, Int.sub_sub_self, List.append_nil] at hwalk
    rw [hn, Int.sub_sub_self] at hpath
    have hsteps : steps = s := by
      rw [← hwalk]
      exact Option.some.inj (h.symm.trans hfound)
    subst hsteps
    have hruns := @Path.runs _ _ _ _ _ _ _ _ hpath [] (by
      rw [Int.toNat_natCast, Int.toNat_natCast, List.drop_length, List.drop_length]
      exact Runs.done)
    rw [List.append_nil] at hruns
    refine ⟨hruns, ?_⟩
    rw [hpath.changes]
    exact hfirst
  · rw [show search old new (min (old.length + new.length) longestScript + 1) 0 (fun _ => 0) [] =
      none from hnone] at h
    cases h

theorem script_runs (h : script old new = some steps) :
    Runs steps old new := (script_found h).1

theorem script_shortest (h : script old new = some steps) {common : List α}
    (hold : common.Sublist old) (hnew : common.Sublist new) :
    common.length ≤ steps.count .keep := by
  obtain ⟨hruns, hfirst⟩ := script_found h
  obtain ⟨s, hs, hlen⟩ := exists_runs hold hnew
  have hcounts := hruns.changes_add_keeps
  have hcounts' := hs.changes_add_keeps
  have hle : changes steps ≤ changes s := by
    by_contra hlt
    exact hfirst _ (Nat.not_le.mp hlt) (hs.found (Nat.le_refl _))
  omega

end WalkBack

section Rewriting

/-- Edits that rewrite a text, from an offset on: each keeps what is before it and puts a new
text in the place of an old one. -/
inductive Rewrites : Nat → List Char → List Char → List Edit → Prop
  | rest (at' : Nat) (text : List Char) : Rewrites at' text text []
  | edit {at' : Nat} {before after : List Char} {es : List Edit} (kept old new : List Char)
      (h : Rewrites (at' + size kept + size old) before after es) :
      Rewrites at' (kept ++ (old ++ before)) (kept ++ (new ++ after))
        (⟨⟨at' + size kept, at' + size kept + size old⟩, new⟩ :: es)

variable {es : List Edit} {at' : Nat}

theorem Rewrites.extend {before after : List Char}
    (front : List Char) (h : Rewrites (at' + size front) before after es) :
    Rewrites at' (front ++ before) (front ++ after) es := by
  cases h with
  | rest => exact .rest at' _
  | edit kept old new h =>
      have hedit := @Rewrites.edit at' _ _ _ (front ++ kept) old new
        (by rwa [size_append, ← Nat.add_assoc])
      rwa [List.append_assoc, List.append_assoc, size_append, ← Nat.add_assoc] at hedit

theorem Rewrites.append {before after : List Char}
    (back : List Char) (h : Rewrites at' before after es) :
    Rewrites at' (before ++ back) (after ++ back) es := by
  induction h with
  | rest at' text => exact .rest at' _
  | edit kept old new h ih =>
      have hedit := Rewrites.edit kept old new ih
      simpa only [List.append_assoc] using hedit

theorem Rewrites.filter {before after : List Char} (h : Rewrites at' before after es) :
    Rewrites at' before after
      (es.filter (fun edit => edit.at'.start != edit.at'.stop || !edit.text.isEmpty)) := by
  induction h with
  | rest at' text => exact .rest at' text
  | edit kept old new h ih =>
      rename_i at' before after es
      rw [List.filter_cons]
      split_ifs with hkeep
      · exact .edit kept old new ih
      · rw [Bool.or_eq_true, bne_iff_ne, Bool.not_eq_true', not_or] at hkeep
        obtain ⟨hsize, hnew⟩ := hkeep
        have hold : old = [] := eq_nil_of_size (by
          simp only at hsize
          omega)
        have hnil : new = [] := by simpa using hnew
        subst hold hnil
        rw [size_nil, Nat.add_zero] at ih
        exact ih.extend kept

def applied (text : List Char) : Nat → List Edit → Option (List Char)
  | at', [] => after text at'
  | at', edit :: es =>
      (slice text at' edit.at'.start).bind
        (fun kept => (applied text edit.at'.stop es).map (fun rest => kept ++ edit.text ++ rest))

/-- Edits that are ascending and disjoint, begin and end between characters of one text, and make
the other text of it. -/
structure Rebuilds (before after : List Char) (es : List Edit) : Prop where
  ordered : ∀ edit ∈ es, edit.at'.start ≤ edit.at'.stop
  ascending : es.Pairwise (fun edit later => edit.at'.stop ≤ later.at'.start)
  boundaries : ∀ edit ∈ es, Boundary before edit.at'.start ∧ Boundary before edit.at'.stop
  rebuilt : applied before 0 es = some after

theorem Rewrites.from_offset {before after : List Char}
    (h : Rewrites at' before after es) {edit : Edit} (hedit : edit ∈ es) :
    at' ≤ edit.at'.start ∧ edit.at'.start ≤ edit.at'.stop := by
  induction h with
  | rest => cases hedit
  | edit kept old new h ih =>
      rcases List.mem_cons.mp hedit with rfl | hedit
      · exact ⟨Nat.le_add_right _ _, Nat.le_add_right _ _⟩
      · have := ih hedit
        omega

theorem Rewrites.ascending {before after : List Char} (h : Rewrites at' before after es) :
    es.Pairwise (fun edit later => edit.at'.stop ≤ later.at'.start) := by
  induction h with
  | rest => exact List.Pairwise.nil
  | edit kept old new h ih =>
      exact List.pairwise_cons.mpr ⟨fun later hlater => (h.from_offset hlater).1, ih⟩

theorem Rewrites.boundaries {at' : Nat} {before after front : List Char} {es : List Edit}
    (h : Rewrites at' before after es) (hfront : size front = at') {edit : Edit}
    (hedit : edit ∈ es) : Boundary (front ++ before) edit.at'.start ∧
      Boundary (front ++ before) edit.at'.stop := by
  induction h generalizing front with
  | rest => cases hedit
  | edit kept old new h ih =>
      rename_i at' before after es
      rcases List.mem_cons.mp hedit with rfl | hedit
      · exact ⟨⟨front ++ kept, old ++ before, by simp, by rw [size_append, hfront]⟩,
          ⟨front ++ kept ++ old, before, by simp, by rw [size_append, size_append, hfront]⟩⟩
      · have := @ih (front ++ kept ++ old)
          (by rw [size_append, size_append, hfront]) hedit
        simpa only [List.append_assoc] using this

theorem Rewrites.applied {at' : Nat} {before after front : List Char} {es : List Edit}
    (h : Rewrites at' before after es) (hfront : size front = at') :
    Lsp.applied (front ++ before) at' es = some after := by
  induction h generalizing front with
  | rest at' text =>
      rw [Lsp.applied, ← hfront]
      exact after_append front text
  | edit kept old new h ih =>
      rename_i at' before after es
      have hrest := @ih (front ++ kept ++ old)
        (by rw [size_append, size_append, hfront])
      simp only [List.append_assoc] at hrest
      have hslice : slice (front ++ (kept ++ (old ++ before))) at' (at' + size kept) =
          some kept := by
        rw [← hfront]
        exact slice_append front kept (old ++ before)
      rw [Lsp.applied]
      simp only
      rw [hslice, Option.bind_some, hrest, Option.map_some, List.append_assoc]

theorem Rewrites.rebuilds {before after : List Char}
    (h : Rewrites 0 before after es) : Rebuilds before after es :=
  ⟨fun _ hedit => (h.from_offset hedit).2, h.ascending,
    fun _ hedit => @Rewrites.boundaries _ _ _ [] _ h rfl _ hedit,
    @Rewrites.applied _ _ _ [] _ h rfl⟩

end Rewriting

section Narrowing

theorem pullBack_passes {passes : Nat → Bool} (hzero : passes 0 = true) (count : Nat) :
    passes (pullBack passes count) = true ∧ pullBack passes count ≤ count := by
  induction count with
  | zero => exact ⟨hzero, Nat.le_refl 0⟩
  | succ count ih =>
      rw [pullBack]
      split_ifs with h
      · exact ⟨h, Nat.le_refl _⟩
      · exact ⟨ih.1, Nat.le_succ_of_le ih.2⟩

theorem agreeing_cons {α : Type} [DecidableEq α] (a b : α) (left right : List α) :
    agreeing (a :: left) (b :: right) = if a = b then agreeing left right + 1 else 0 := by
  rw [agreeing, List.zip_cons_cons, List.takeWhile_cons]
  simp only [decide_eq_true_eq]
  split_ifs <;> rfl

theorem agreeing_le {α : Type} [DecidableEq α] (left right : List α) :
    agreeing left right ≤ left.length ∧ agreeing left right ≤ right.length := by
  have hle : agreeing left right ≤ (left.zip right).length :=
    (List.takeWhile_sublist _).length_le
  rw [List.length_zip] at hle
  omega

theorem take_agreeing {α : Type} [DecidableEq α] {left right : List α} {count : Nat}
    (h : count ≤ agreeing left right) : left.take count = right.take count := by
  induction left generalizing right count with
  | nil =>
      have := (agreeing_le ([] : List α) right).1
      rw [List.length_nil] at this
      rw [Nat.le_zero.mp (Nat.le_trans h this), List.take_zero, List.take_zero]
  | cons a left ih =>
      cases right with
      | nil =>
          have := (agreeing_le (a :: left) []).2
          rw [List.length_nil] at this
          rw [Nat.le_zero.mp (Nat.le_trans h this), List.take_zero, List.take_zero]
      | cons b right =>
          rw [agreeing_cons] at h
          cases count with
          | zero => rfl
          | succ count =>
              split_ifs at h with hab
              · rw [hab, List.take_succ_cons, List.take_succ_cons,
                  ih (Nat.le_of_succ_le_succ h)]
              · omega

theorem isCharBoundary_eq {text : List Char} {offset : Nat} (h : isCharBoundary text offset = true) :
    ∃ front back, text = front ++ back ∧ size front = offset := by
  obtain ⟨front, hfront⟩ := Option.isSome_iff_exists.mp h
  obtain ⟨back, htext, hsize⟩ := upTo_eq_some hfront
  exact ⟨front, back, htext, hsize⟩

theorem isCharBoundary_size (front back : List Char) :
    isCharBoundary (front ++ back) (size front) = true := by
  rw [isCharBoundary, upTo_append]
  rfl

theorem take_size (front back : List Char) :
    (bytes (front ++ back)).take (size front) = bytes front := by
  rw [bytes_append, size, List.take_left]

theorem narrowing {old new : List Char} {head common tail : Nat}
    (hhead : head = pullBack (fun count => isCharBoundary old count && isCharBoundary new count)
      (agreeing (bytes old) (bytes new))) (hcommon : common = min (size old) (size new) - head)
    (htail : tail = pullBack (fun count => isCharBoundary old (size old - count) &&
        isCharBoundary new (size new - count))
      (agreeing ((bytes old).reverse.take common) ((bytes new).reverse.take common))) :
    ∃ front old' new' back, old = front ++ (old' ++ back) ∧ new = front ++ (new' ++ back) ∧
      head = size front ∧ tail = size back ∧ slice new head (size new - tail) = some new' := by
  obtain ⟨hpass, hle⟩ := @pullBack_passes
    (fun count => isCharBoundary old count && isCharBoundary new count)
    (by rw [Bool.and_eq_true]; exact ⟨isCharBoundary_size [] old, isCharBoundary_size [] new⟩)
    (agreeing (bytes old) (bytes new))
  rw [← hhead, Bool.and_eq_true] at hpass
  rw [← hhead] at hle
  obtain ⟨front, rest, hold, hfront⟩ := isCharBoundary_eq hpass.1
  obtain ⟨front', rest', hnew, hfront'⟩ := isCharBoundary_eq hpass.2
  have hsame : front = front' := by
    refine bytes_injective ?_
    rw [← take_size front rest, ← take_size front' rest', ← hold, ← hnew, hfront, hfront']
    exact take_agreeing hle
  subst hsame
  obtain ⟨htpass, htle⟩ := @pullBack_passes
    (fun count => isCharBoundary old (size old - count) &&
      isCharBoundary new (size new - count)) (by
      have hend := isCharBoundary_size old []
      have hend' := isCharBoundary_size new []
      rw [List.append_nil] at hend hend'
      rw [Bool.and_eq_true]
      exact ⟨hend, hend'⟩)
    (agreeing ((bytes old).reverse.take common) ((bytes new).reverse.take common))
  rw [← htail, Bool.and_eq_true] at htpass
  rw [← htail] at htle
  have hlimit : tail ≤ common := by
    have := (agreeing_le ((bytes old).reverse.take common)
      ((bytes new).reverse.take common)).1
    rw [List.length_take] at this
    omega
  have hsizes : size front ≤ size old ∧ size front ≤ size new := by
    rw [hold, hnew, size_append, size_append]
    omega
  obtain ⟨start, back, hold', hstart⟩ := isCharBoundary_eq htpass.1
  obtain ⟨start', back', hnew', hstart'⟩ := isCharBoundary_eq htpass.2
  have hsize := congrArg size hold'
  have hsize' := congrArg size hnew'
  rw [size_append] at hsize hsize'
  have hends : back = back' := by
    refine bytes_injective ?_
    have hrev : ∀ {text start back : List Char}, text = start ++ back → size back = tail →
        ((bytes text).reverse.take common).take tail = (bytes back).reverse := by
      rintro text start back rfl hback
      rw [List.take_take, Nat.min_eq_left hlimit, bytes_append, List.reverse_append,
        ← hback, size, ← List.length_reverse, List.take_left]
    have htake := take_agreeing htle
    rw [hrev hold' (by omega), hrev hnew' (by omega)] at htake
    exact List.reverse_injective htake
  subst hends
  obtain ⟨old', rfl, hrest⟩ := append_split (hold.symm.trans hold') (by omega)
  obtain ⟨new', rfl, hrest'⟩ := append_split (hnew.symm.trans hnew') (by omega)
  refine ⟨front, old', new', back, by rw [hold', List.append_assoc],
    by rw [hnew', List.append_assoc], hfront.symm, by omega, ?_⟩
  rw [hnew', List.append_assoc, ← hfront]
  rw [size_append] at hstart' hsize'
  have hstop : size (front ++ (new' ++ back)) - tail = size front + size new' := by
    rw [size_append, size_append]
    omega
  rw [hstop]
  exact slice_append front new' back

theorem span_of_le {start stop : Nat} (hstart : start ≤ maxOffset) (hstop : stop ≤ maxOffset) :
    span start stop = ⟨start, stop⟩ := by
  rw [span, saturatingU32_of_le hstart, saturatingU32_of_le hstop]

theorem narrowed_rewrites {text front before after : List Char} {at' : Nat} {es : List Edit}
    (htext : size text ≤ maxOffset) (h : Rewrites at' before after es)
    (hfront : text = front ++ before) (hat : size front = at') :
    Rewrites at' before after (es.map (narrowed text)) := by
  induction h generalizing front with
  | rest at' rest => exact .rest at' rest
  | edit kept old new h ih =>
      rename_i at' before after es
      have hslice : slice text (at' + size kept) (at' + size kept + size old) = some old := by
        have := slice_append (front ++ kept) old before
        rwa [size_append, hat, List.append_assoc, ← hfront] at this
      obtain ⟨shared, old', new', back, hold, hnew, hhead, htail, hcut⟩ :=
        @narrowing old new _ _ _ rfl rfl rfl
      have hrest := @ih (front ++ kept ++ old) (by simp [hfront])
        (by rw [size_append, size_append, hat])
      have hsize := congrArg size hfront
      rw [size_append, size_append, size_append, hat] at hsize
      have hparts := congrArg size hold
      rw [size_append, size_append] at hparts
      rw [List.map_cons, narrowed]
      simp only [hslice]
      rw [hcut, htail, hhead, span_of_le (by omega) (by omega), Option.getD_some]
      have hedit := @Rewrites.edit at' (back ++ before) (back ++ after) (es.map (narrowed text))
        (kept ++ shared) old' new' (by
          refine Rewrites.extend back ?_
          rw [size_append]
          rwa [show at' + (size kept + size shared) + size old' + size back =
            at' + size kept + size old by omega])
      have hstart : at' + size (kept ++ shared) = at' + size kept + size shared := by
        rw [size_append, Nat.add_assoc]
      rw [hstart, show at' + size kept + size shared + size old' =
        at' + size kept + size old - size back by omega] at hedit
      have hbefore : kept ++ shared ++ (old' ++ (back ++ before)) = kept ++ (old ++ before) := by
        rw [hold]
        simp only [List.append_assoc]
      have hafter : kept ++ shared ++ (new' ++ (back ++ after)) = kept ++ (new ++ after) := by
        rw [hnew]
        simp only [List.append_assoc]
      rwa [hbefore, hafter] at hedit

end Narrowing

section Grouping

theorem lines_flatten (text : List Char) : (lines text).flatten = text := by
  induction text with
  | nil => rfl
  | cons c text ih =>
      rw [lines]
      split_ifs with hc
      · rw [List.flatten_cons, ih]
        rfl
      · split
        · rename_i hnil
          rw [hnil] at ih
          rw [← ih]
          rfl
        · rename_i line rest hcons
          rw [hcons] at ih
          rw [List.flatten_cons, List.cons_append, ← List.flatten_cons, ih]

theorem size_flatten (texts : List (List Char)) : (texts.map size).sum = size texts.flatten := by
  induction texts with
  | nil => rfl
  | cons text texts ih => rw [List.map_cons, List.sum_cons, ih, List.flatten_cons, size_append]

theorem closed_rewrites {at' start : Nat} {before after dropped text : List Char} {es : List Edit}
    (hat : at' ≤ maxOffset) (hstart : start + size dropped = at')
    (h : Rewrites at' before after es) :
    Rewrites start (dropped ++ before) (text ++ after) (closed (some (start, text)) at' ++ es) := by
  have hedit := @Rewrites.edit start _ _ _ [] dropped text (by
    rw [size_nil, Nat.add_zero, hstart]
    exact h)
  rw [size_nil, Nat.add_zero, hstart] at hedit
  rw [closed, span_of_le (by omega) hat]
  exact hedit

theorem grouped_rewrites {old new : List (List Char)} {steps : List Step}
    {oldRest newRest : List (List Char)} (h : Runs steps oldRest newRest) {i j at' : Nat}
    (hold : old.drop i = oldRest) (hnew : new.drop j = newRest)
    (hfits : at' + size oldRest.flatten ≤ maxOffset) :
    Rewrites at' oldRest.flatten newRest.flatten (grouped old new none i j at' steps) ∧
    ∀ (start : Nat) (dropped text : List Char), start + size dropped = at' →
      Rewrites start (dropped ++ oldRest.flatten) (text ++ newRest.flatten)
        (grouped old new (some (start, text)) i j at' steps) := by
  induction h generalizing i j at' with
  | done =>
      refine ⟨.rest at' _, fun start dropped text hstart => ?_⟩
      have hedit := @closed_rewrites _ _ _ _ _ text _ (by omega) hstart (.rest at' [])
      rwa [List.append_nil (closed _ _)] at hedit
  | keep a h ih =>
      obtain ⟨hget, -, hold'⟩ := of_drop_eq_cons hold
      obtain ⟨-, -, hnew'⟩ := of_drop_eq_cons hnew
      rw [List.flatten_cons, size_append] at hfits
      have hrest := (@ih _ _ (at' + size a) hold' hnew' (by omega)).1
      rw [List.flatten_cons, List.flatten_cons]
      constructor
      · rw [grouped, hget]
        exact hrest.extend a
      · intro start dropped text hstart
        rw [grouped, hget]
        exact closed_rewrites (by omega) hstart (hrest.extend a)
  | drop a h ih =>
      obtain ⟨hget, -, hold'⟩ := of_drop_eq_cons hold
      rw [List.flatten_cons, size_append] at hfits
      have hrest := (@ih _ _ (at' + size a) hold' hnew (by omega)).2
      rw [List.flatten_cons]
      constructor
      · rw [grouped, hget]
        exact hrest at' a [] rfl
      · intro start dropped text hstart
        rw [grouped, hget, ← List.append_assoc]
        exact hrest start (dropped ++ a) text (by rw [size_append]; omega)
  | add a h ih =>
      obtain ⟨hget, -, hnew'⟩ := of_drop_eq_cons hnew
      have hrest := (ih hold hnew' hfits).2
      rw [List.flatten_cons]
      constructor
      · rw [grouped, hget]
        exact hrest at' [] a rfl
      · intro start dropped text hstart
        rw [grouped, hget, ← List.append_assoc]
        exact hrest start dropped (text ++ a) hstart

theorem middle_split {α : Type} [DecidableEq α] {old new : List α} {head tail : Nat}
    (hhead : head = agreeing old new)
    (htail : tail = agreeing (old.reverse.take (min old.length new.length - head))
      (new.reverse.take (min old.length new.length - head))) :
    ∃ front oldMiddle newMiddle back, old = front ++ (oldMiddle ++ back) ∧
      new = front ++ (newMiddle ++ back) ∧ old.take head = front ∧
      (old.take (old.length - tail)).drop head = oldMiddle ∧
      (new.take (new.length - tail)).drop head = newMiddle := by
  have hfront : old.take head = new.take head := take_agreeing hhead.le
  have hle := agreeing_le old new
  have hlimit := (agreeing_le (old.reverse.take (min old.length new.length - head))
    (new.reverse.take (min old.length new.length - head))).1
  rw [← htail, List.length_take] at hlimit
  have hback : old.drop (old.length - tail) = new.drop (new.length - tail) := by
    have htake := @take_agreeing _ _ (old.reverse.take (min old.length new.length - head))
      (new.reverse.take (min old.length new.length - head)) _ htail.le
    rw [List.take_take, List.take_take, Nat.min_eq_left (by omega), List.take_reverse,
      List.take_reverse] at htake
    exact List.reverse_injective htake
  have hsplit : ∀ l : List α, head ≤ l.length - tail →
      l = l.take head ++ ((l.take (l.length - tail)).drop head ++ l.drop (l.length - tail)) := by
    intro l hl
    have htake : (l.take (l.length - tail)).take head = l.take head := by
      rw [List.take_take, Nat.min_eq_left hl]
    rw [← List.append_assoc, ← htake, List.take_append_drop, List.take_append_drop]
  refine ⟨old.take head, _, _, old.drop (old.length - tail), hsplit old (by omega), ?_, rfl, rfl,
    rfl⟩
  rw [hfront, hback]
  exact hsplit new (by omega)

theorem edits_rewrites {before after : List Char} (h : size before ≤ maxOffset) :
    Rewrites 0 before after (edits before after) := by
  rw [edits]
  refine Rewrites.filter ?_
  refine @narrowed_rewrites _ [] _ _ _ _ h ?_ rfl rfl
  obtain ⟨front, oldMiddle, newMiddle, back, hold, hnew, htake, hmiddle, hmiddle'⟩ :=
    @middle_split _ _ (lines before) (lines after) _ _ rfl rfl
  have hbefore : front.flatten ++ (oldMiddle.flatten ++ back.flatten) = before := by
    rw [← List.flatten_append, ← List.flatten_append, ← hold, lines_flatten]
  have hafter : front.flatten ++ (newMiddle.flatten ++ back.flatten) = after := by
    rw [← List.flatten_append, ← List.flatten_append, ← hnew, lines_flatten]
  have hsize := congrArg size hbefore
  rw [size_append, size_append] at hsize
  simp only [hmiddle, hmiddle', htake, size_flatten]
  have hrun : Rewrites (size front.flatten) oldMiddle.flatten newMiddle.flatten
      (match script oldMiddle newMiddle with
        | some steps => grouped oldMiddle newMiddle none 0 0 (size front.flatten) steps
        | none => [⟨span (size front.flatten) (size front.flatten + size oldMiddle.flatten),
            newMiddle.flatten⟩]) := by
    cases hscript : script oldMiddle newMiddle with
    | some steps => exact (grouped_rewrites (script_runs hscript) rfl rfl (by omega)).1
    | none =>
        have hedit := @closed_rewrites _ (size front.flatten) _ _ oldMiddle.flatten
          newMiddle.flatten _ (by omega) rfl
          (.rest (size front.flatten + size oldMiddle.flatten) [])
        rwa [List.append_nil, List.append_nil, List.append_nil] at hedit
  rw [← hbefore, ← hafter]
  refine Rewrites.extend front.flatten ?_
  rw [Nat.zero_add]
  exact hrun.append back.flatten

theorem agreeing_self {α : Type} [DecidableEq α] (l : List α) : agreeing l l = l.length := by
  induction l with
  | nil => rfl
  | cons a l ih => rw [agreeing_cons, if_pos rfl, ih, List.length_cons]

theorem edits_self (text : List Char) : edits text text = [] := by
  rw [edits]
  simp only [agreeing_self, Nat.min_self, Nat.sub_self, List.take_zero, List.length_nil,
    Nat.sub_zero, List.take_length, List.drop_length]
  rfl

/-- The edits of a text that fits rebuild the other one, and a script that is found is a shortest
one. -/
theorem edits_rebuild (before after : List Char) (h : size before ≤ maxOffset) :
    Rebuilds before after (edits before after) ∧ edits before before = [] ∧
      ∀ (old new : List (List Char)) (steps : List Step), script old new = some steps →
        Runs steps old new ∧
        (∃ common : List (List Char), common.Sublist old ∧ common.Sublist new ∧
          common.length = steps.count .keep) ∧
        ∀ common : List (List Char), common.Sublist old → common.Sublist new →
          common.length ≤ steps.count .keep :=
  ⟨(edits_rewrites h).rebuilds, edits_self before, fun _ _ _ hscript =>
    ⟨script_runs hscript, (script_runs hscript).common,
      fun _ hold hnew => script_shortest hscript hold hnew⟩⟩

theorem edits_rebuild_line : size ['a', '\n'] ≤ maxOffset ∧
    (edits ['a', '\n'] ['b', '\n']).length = 1 ∧
    Rebuilds ['a', '\n'] ['b', '\n'] (edits ['a', '\n'] ['b', '\n']) :=
  ⟨by decide +kernel, by decide +kernel,
    (edits_rebuild ['a', '\n'] ['b', '\n'] (by decide +kernel)).1⟩

end Grouping

section Long

theorem stop_of_mem_grouped {old new : List (List Char)} {steps : List Step}
    {run : Option (Nat × List Char)} {i j at' : Nat} {edit : Edit}
    (h : edit ∈ grouped old new run i j at' steps) : edit.at'.stop ≤ maxOffset := by
  have hclosed : ∀ {run : Option (Nat × List Char)} {at' : Nat}, edit ∈ closed run at' →
      edit.at'.stop ≤ maxOffset := by
    intro run at' hedit
    cases run with
    | none => cases hedit
    | some run =>
        rw [closed, List.mem_singleton] at hedit
        rw [hedit]
        exact Nat.min_le_right _ _
  induction steps generalizing run i j at' with
  | nil => exact hclosed h
  | cons step steps ih =>
      cases step with
      | keep =>
          rcases List.mem_append.mp h with hedit | hedit
          · exact hclosed hedit
          · exact ih hedit
      | drop => exact ih h
      | add => exact ih h

theorem stop_of_mem_edits {before after : List Char} {edit : Edit} (h : edit ∈ edits before after) :
    edit.at'.stop ≤ maxOffset := by
  obtain ⟨replaced, hreplaced, rfl⟩ := List.mem_map.mp (List.mem_of_mem_filter h)
  have hstop : replaced.at'.stop ≤ maxOffset := by
    split at hreplaced
    · exact stop_of_mem_grouped hreplaced
    · rw [List.mem_singleton] at hreplaced
      rw [hreplaced]
      exact Nat.min_le_right _ _
  rw [narrowed]
  split
  · exact hstop
  · exact Nat.min_le_right _ _

theorem applied_last {front : List Char} {c : Char} {at' : Nat} {es : List Edit}
    {result : List Char} (hat : at' ≤ size front) (hes : ∀ edit ∈ es, edit.at'.stop ≤ size front)
    (h : applied (front ++ [c]) at' es = some result) : result.getLast? = some c := by
  induction es generalizing at' result with
  | nil =>
      obtain ⟨before, htext, hsize⟩ := after_eq_some h
      obtain ⟨middle, -, rfl⟩ := append_split htext.symm (by omega)
      simp
  | cons edit es ih =>
      obtain ⟨kept, -, hmap⟩ := Option.bind_eq_some_iff.mp h
      obtain ⟨rest, hrest, rfl⟩ := Option.map_eq_some_iff.mp hmap
      have hlast := ih (hes edit List.mem_cons_self)
        (fun later hlater => hes later (List.mem_cons_of_mem edit hlater)) hrest
      rw [List.getLast?_append, hlast]
      rfl

theorem size_replicate (count : Nat) (c : Char) :
    size (List.replicate count c) = count * (charBytes c).length := by
  induction count with
  | zero => rw [Nat.zero_mul]; rfl
  | succ count ih =>
      rw [List.replicate_succ, size_cons, ih, Nat.succ_mul, Nat.add_comm]

/-- A change past the largest offset is not made. -/
theorem edits_past_end : ¬Rebuilds (List.replicate maxOffset 'a' ++ ['b'])
    (List.replicate maxOffset 'a' ++ ['c'])
    (edits (List.replicate maxOffset 'a' ++ ['b']) (List.replicate maxOffset 'a' ++ ['c'])) := by
  intro h
  have hsize : size (List.replicate maxOffset 'a') = maxOffset := by
    rw [size_replicate, size_ascii (by decide), Nat.mul_one]
  have hlast := applied_last (Nat.zero_le _)
    (fun edit hedit => by
      rw [hsize]
      exact stop_of_mem_edits hedit) h.rebuilt
  rw [List.getLast?_append] at hlast
  cases hlast

end Long


end Lsp
end Zdeceptron
