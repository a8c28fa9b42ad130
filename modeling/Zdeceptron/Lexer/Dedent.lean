import Mathlib.Data.List.TakeWhile
import Zdeceptron.Library.Lines

/-!
# Moving block literals

A block literal is measured against the indentation of its closing line, so a literal that is
moved sideways as a whole keeps its value.  The formatter moves one so.
-/

namespace Zdeceptron
namespace Lexer
namespace Block

open Library

abbrev Text := List Char

section Literal

def isSpaces (line : Text) : Bool := line.all (· == ' ')

/-- What a line says, with the margin removed.  A line of nothing but spaces is blank. -/
def dedentLine (margin line : Text) : Option Text :=
  if margin.isPrefixOf line then some (line.drop margin.length)
  else if isSpaces line then some [] else none

def dedentBlock (body : Text) : Option Text :=
  match body.splitOn '\n' with
  | [] => none
  | first :: rest =>
      let lines := rest.map stripReturn
      lines.getLast?.bind (fun margin =>
        if isSpaces (stripReturn first) && isSpaces margin then
          (lines.dropLast.mapM (dedentLine margin)).map (fun texts => ['\n'].intercalate texts)
        else none)

def leadingSpaces (text : Text) : Nat := (text.takeWhile (· == ' ')).length

def shifted (amount : Int) (text : Text) : Text :=
  List.replicate (leadingSpaces text + amount).toNat ' ' ++ text.dropWhile (· == ' ')

def closingIndent (body : Text) : Nat := leadingSpaces ((body.splitOn '\n').getLast?.getD [])

def INDENT : Nat := 4

def literalShift (depth closing : Nat) : Int := ((depth + 1) * INDENT : Nat) - (closing : Int)

def reline (f : Text → Text) (body : Text) : Text :=
  match body.splitOn '\n' with
  | [] => []
  | first :: rest => ['\n'].intercalate (first :: rest.map f)

end Literal

section Lines

variable {u line margin text : Text} {amount : Int} {k m : Nat}

abbrev spaces (k : Nat) : Text := List.replicate k ' '

theorem exists_spaces (line : Text) : ∃ k u, line = spaces k ++ u ∧ u.head? ≠ some ' ' := by
  refine ⟨leadingSpaces line, line.dropWhile (· == ' '), ?_, fun h => ?_⟩
  · have hspaces : line.takeWhile (· == ' ') = spaces (leadingSpaces line) :=
      List.eq_replicate_iff.mpr ⟨rfl, fun c hc => by simpa using List.mem_takeWhile_imp hc⟩
    rw [← hspaces, List.takeWhile_append_dropWhile]
  · have := head_dropWhile h
    cases this

theorem beq_of_mem_spaces {c : Char} (hc : c ∈ spaces k) : (c == ' ') = true := by
  simpa using List.eq_of_mem_replicate hc

theorem beq_of_head {c : Char} (hu : u.head? ≠ some ' ') (hc : u.head? = some c) :
    (c == ' ') = false := by
  simpa using fun heq : c = ' ' => hu (heq ▸ hc)

theorem leadingSpaces_spaces (hu : u.head? ≠ some ' ') : leadingSpaces (spaces k ++ u) = k := by
  unfold leadingSpaces
  rw [takeWhile_stop (fun c => beq_of_mem_spaces) (fun c => beq_of_head hu), List.length_replicate]

theorem shifted_spaces (hu : u.head? ≠ some ' ') :
    shifted amount (spaces k ++ u) = spaces (k + amount).toNat ++ u := by
  unfold shifted
  rw [leadingSpaces_spaces hu,
    dropWhile_stop (fun c => beq_of_mem_spaces) (fun c => beq_of_head hu)]

theorem isSpaces_spaces (hu : u.head? ≠ some ' ') : isSpaces (spaces k ++ u) = u.isEmpty := by
  cases u with
  | nil => simp [isSpaces]
  | cons c u =>
      have hc : c ≠ ' ' := fun heq => hu (heq ▸ rfl)
      simp [isSpaces, hc]

theorem dedentLine_spaces (hu : u.head? ≠ some ' ') :
    dedentLine (spaces m) (spaces k ++ u) =
      if m ≤ k then some (spaces (k - m) ++ u) else if u.isEmpty then some [] else none := by
  unfold dedentLine
  by_cases hle : m ≤ k
  · have hsplit : spaces k ++ u = spaces m ++ (spaces (k - m) ++ u) := by
      rw [← List.append_assoc, List.replicate_append_replicate, Nat.add_sub_cancel' hle]
    rw [if_pos hle, hsplit, if_pos (List.isPrefixOf_iff_prefix.mpr (List.prefix_append _ _)),
      List.drop_left]
  · have hnot : ¬ (spaces m).isPrefixOf (spaces k ++ u) = true := by
      intro hprefix
      obtain ⟨rest, hrest⟩ := List.isPrefixOf_iff_prefix.mp hprefix
      have hat := congrArg (fun l : Text => l[k]?) hrest
      rw [List.getElem?_append_left (by simp; omega), List.getElem?_append_right (by simp),
        List.getElem?_replicate_of_lt (by omega), List.length_replicate, Nat.sub_self] at hat
      exact hu (List.head?_eq_getElem?.trans hat.symm)
    rw [if_neg hle, if_neg hnot, isSpaces_spaces hu]

theorem dedentLine_shifted (hm : 0 ≤ m + amount) (h : dedentLine (spaces m) line = some text) :
    dedentLine (spaces (m + amount).toNat) (shifted amount line) = some text := by
  obtain ⟨k, u, rfl, hu⟩ := exists_spaces line
  rw [dedentLine_spaces hu] at h
  rw [shifted_spaces hu, dedentLine_spaces hu]
  split_ifs at h with hle hempty
  · have hsub : (k + amount).toNat - (m + amount).toNat = k - m := by omega
    rw [if_pos (by omega), hsub]
    exact h
  · cases h
    obtain rfl := List.isEmpty_iff.mp hempty
    split_ifs with hle'
    · have hzero : (k + amount).toNat - (m + amount).toNat = 0 := by omega
      rw [hzero]
      rfl
    · rfl

theorem stripReturn_shifted (line : Text) :
    stripReturn (shifted amount line) = shifted amount (stripReturn line) := by
  obtain ⟨k, u, rfl, hu⟩ := exists_spaces line
  rw [shifted_spaces hu]
  obtain rfl | ⟨front, c, rfl⟩ := List.eq_nil_or_concat u
  · have hspaces : ∀ n, stripReturn (spaces n ++ []) = spaces n ++ [] := fun n =>
      stripReturn_of_not_mem (by simp)
    rw [hspaces, hspaces, shifted_spaces hu]
  · rw [List.concat_eq_append] at hu ⊢
    by_cases hc : c = '\r'
    · subst hc
      have hfront : front.head? ≠ some ' ' := by
        cases front with
        | nil => simp
        | cons d front => exact hu
      rw [← List.append_assoc, ← List.append_assoc, stripReturn_append, stripReturn_append,
        shifted_spaces hfront]
    · have hkeep : ∀ n, stripReturn (spaces n ++ (front ++ [c])) = spaces n ++ (front ++ [c]) := by
        intro n
        rw [stripReturn, if_neg (by simpa using hc)]
      rw [hkeep, hkeep, shifted_spaces hu]

theorem leadingSpaces_of_strip (h : stripReturn line = spaces m) : leadingSpaces line = m := by
  unfold stripReturn at h
  split_ifs at h with hlast
  · obtain ⟨front, rfl⟩ := List.getLast?_eq_some_iff.mp hlast
    rw [List.dropLast_concat] at h
    rw [h]
    exact leadingSpaces_spaces (by simp)
  · rw [h, ← List.append_nil (spaces m)]
    exact leadingSpaces_spaces (by simp)

theorem shifted_natCast (n : Nat) (line : Text) : shifted n line = spaces n ++ line := by
  obtain ⟨k, u, rfl, hu⟩ := exists_spaces line
  have hsum : ((k : Int) + n).toNat = n + k := by omega
  rw [shifted_spaces hu, hsum, ← List.append_assoc, List.replicate_append_replicate]

theorem mapM_shifted {lines texts : List Text} (hm : 0 ≤ m + amount)
    (h : lines.mapM (dedentLine (spaces m)) = some texts) :
    (lines.map (shifted amount)).mapM (dedentLine (spaces (m + amount).toNat)) = some texts := by
  induction lines generalizing texts with
  | nil => exact h
  | cons line lines ih =>
      rw [List.mapM_cons] at h
      obtain ⟨text, htext, hrest⟩ := Option.bind_eq_some_iff.mp h
      obtain ⟨others, hothers, heq⟩ := Option.bind_eq_some_iff.mp hrest
      rw [List.map_cons, List.mapM_cons, dedentLine_shifted hm htext, ih hothers]
      exact heq

end Lines

section Moved

variable {body value : Text} {amount : Int}

theorem newline_not_mem {line : Text} (h : line ∈ body.splitOn '\n') : '\n' ∉ line := by
  induction body generalizing line with
  | nil =>
      rw [List.splitOn_nil, List.mem_singleton] at h
      simp [h]
  | cons c body ih =>
      rw [List.splitOn_cons_eq_if_modifyHead] at h
      split_ifs at h with hc
      · obtain rfl | h := List.mem_cons.mp h
        · exact List.not_mem_nil
        · exact ih h
      · obtain ⟨first, rest, hsplit⟩ :=
          List.exists_cons_of_ne_nil (List.splitOn_ne_nil '\n' body)
        rw [hsplit] at h ih
        obtain rfl | h := List.mem_cons.mp h
        · rw [List.mem_cons, not_or]
          exact ⟨fun heq => hc (heq ▸ rfl), ih List.mem_cons_self⟩
        · exact ih (List.mem_cons_of_mem _ h)

theorem splitOn_reline {first : Text} {rest : List Text}
    (hsplit : body.splitOn '\n' = first :: rest) :
    (reline (shifted amount) body).splitOn '\n' = first :: rest.map (shifted amount) := by
  unfold reline
  rw [hsplit]
  refine List.splitOn_intercalate _ (fun line hline => ?_) (List.cons_ne_nil _ _)
  obtain rfl | hline := List.mem_cons.mp hline
  · exact newline_not_mem (hsplit ▸ List.mem_cons_self)
  · obtain ⟨old, hold, rfl⟩ := List.mem_map.mp hline
    have hnot := newline_not_mem (hsplit ▸ List.mem_cons_of_mem _ hold)
    intro hmem
    obtain hmem | hmem := List.mem_append.mp hmem
    · exact absurd (List.eq_of_mem_replicate hmem) (by decide)
    · exact hnot ((List.dropWhile_sublist _).mem hmem)

theorem dedentBlock_shifted (h : dedentBlock body = some value)
    (hclosing : -amount ≤ closingIndent body) :
    dedentBlock (reline (shifted amount) body) = some value := by
  obtain ⟨first, rest, hsplit⟩ := List.exists_cons_of_ne_nil (List.splitOn_ne_nil '\n' body)
  have hlines : (rest.map (shifted amount)).map stripReturn =
      (rest.map stripReturn).map (shifted amount) := by
    rw [List.map_map, List.map_map]
    exact List.map_congr_left (fun line _ => stripReturn_shifted line)
  unfold dedentBlock at h ⊢
  rw [hsplit] at h
  rw [splitOn_reline hsplit]
  simp only [hlines] at h ⊢
  obtain ⟨margin, hmargin, hvalue⟩ := Option.bind_eq_some_iff.mp h
  split_ifs at hvalue with hspaces
  obtain ⟨hfirst, hmarginSpaces⟩ := Bool.and_eq_true_iff.mp hspaces
  obtain ⟨m, rfl⟩ : ∃ m, margin = spaces m :=
    ⟨margin.length, List.eq_replicate_iff.mpr
      ⟨rfl, fun c hc => by simpa using List.all_eq_true.mp hmarginSpaces c hc⟩⟩
  have hindent : closingIndent body = m := by
    rw [List.getLast?_map] at hmargin
    obtain ⟨closing, hlast, hstrip⟩ := Option.map_eq_some_iff.mp hmargin
    unfold closingIndent
    rw [hsplit, List.getLast?_cons, hlast]
    exact leadingSpaces_of_strip hstrip
  have hm : 0 ≤ (m : Int) + amount := by omega
  have hmoved : shifted amount (spaces m) = spaces (m + amount).toNat := by
    have hnil : shifted amount (spaces m ++ []) = spaces (m + amount).toNat ++ [] :=
      shifted_spaces (by simp)
    rwa [List.append_nil, List.append_nil] at hnil
  have hisSpaces : isSpaces (spaces (m + amount).toNat) = true := by simp [isSpaces]
  obtain ⟨texts, htexts, heq⟩ := Option.map_eq_some_iff.mp hvalue
  rw [List.getLast?_map, hmargin, Option.map_some, Option.bind_some, hmoved, hisSpaces, hfirst,
    ← List.map_dropLast, mapM_shifted hm htexts]
  exact congrArg some heq

/-- A literal keeps its value when its lines are indented, when they are moved to the left no
further than its closing line allows, and as the formatter moves it. -/
theorem block_value_kept (h : dedentBlock body = some value) :
    (∀ n, dedentBlock (reline (fun line => spaces n ++ line) body) = some value) ∧
    (∀ n ≤ closingIndent body, dedentBlock (reline (shifted (-n)) body) = some value) ∧
    ∀ depth, dedentBlock (reline (shifted (literalShift depth (closingIndent body))) body) =
      some value := by
  refine ⟨fun n => ?_, fun n hn => ?_, fun depth => ?_⟩
  · have hindent : dedentBlock (reline (shifted n) body) = some value :=
      dedentBlock_shifted h (by omega)
    rwa [show shifted n = fun line => spaces n ++ line from funext (shifted_natCast n)] at hindent
  · exact dedentBlock_shifted h (by omega)
  · refine dedentBlock_shifted h ?_
    unfold literalShift
    omega

def usage : Text := "\n    Usage:\n      zdc\n\n  ".toList

theorem block_value_kept_usage :
    dedentBlock (reline (shifted (literalShift 2 (closingIndent usage))) usage) =
      some "  Usage:\n    zdc\n".toList :=
  (block_value_kept (by decide +kernel)).2.2 2

end Moved

end Block
end Lexer
end Zdeceptron
