import Mathlib.Order.Filter.AtTopBot.Basic
import Zdeceptron.Library.EcmaTokens

/-!
# ECMAScript expressions

The expression grammar over tokens, for numerals, names, prefix and infix operators, updates,
conditionals, fields, calls and constructions.  Levels are those of precedence: 2 for a
conditional, 3 to 12 for the infix operators, 14 for a prefix, 15 for an update, 17 for a field
or a call, 18 for what stands alone.  Sequences, assignments, arrows, powers, coalescing and the
operators that are words are left out.
-/

namespace Library
namespace Ecma

section Trees

inductive Tree
  | number (value : Float)
  | name (text : Text)
  | unary (op : Mark) (operand : Tree)
  | update (op : Mark) (first : Bool) (operand : Tree)
  | binary (op : Mark) (lhs rhs : Tree)
  | conditional (condition then_ otherwise : Tree)
  | member (base : Tree) (name : Text)
  | call (callee : Tree) (args : List Tree)
  | construct (callee : Text) (args : List Tree)

def Tree.isTarget : Tree → Bool
  | name _ => true
  | member _ _ => true
  | _ => false

def reserved : List Text :=
  ["await", "break", "case", "catch", "class", "const", "continue", "debugger", "default",
    "delete", "do", "else", "enum", "export", "extends", "false", "finally", "for", "function",
    "if", "implements", "import", "in", "instanceof", "interface", "let", "new", "null",
    "package", "private", "protected", "public", "return", "static", "super", "switch", "this",
    "throw", "true", "try", "typeof", "var", "void", "while", "with", "yield"].map codes

def new_ : Text := codes "new"

namespace Mark

def level : Mark → Option Nat
  | or => some 3
  | and => some 4
  | bitOr => some 5
  | bitXor => some 6
  | bitAnd => some 7
  | equal | notEqual | same | notSame => some 8
  | less | greater | lessEq | greaterEq => some 9
  | shiftLeft | shiftRight | shiftRightZero => some 10
  | plus | minus => some 11
  | times | divided | modulo => some 12
  | _ => none

def isUnary : Mark → Bool
  | plus | minus | bitNot | not => true
  | _ => false

def isUpdate : Mark → Bool
  | increment | decrement => true
  | _ => false

end Mark

def commas : List (List Token) → List Token
  | [] => []
  | [ts] => ts
  | ts :: rest => ts ++ .mark .comma :: commas rest

/-- The tokens are an expression of the level, and the tree is what it says. -/
inductive Derives : Nat → List Token → Tree → Prop
  | number (x : Float) : Derives 18 [.number x] (.number x)
  | name {n : Text} (hn : n ∉ reserved) : Derives 18 [.name n] (.name n)
  | group {ts : List Token} {t : Tree} (h : Derives 2 ts t) :
      Derives 18 (.mark .leftParen :: (ts ++ [.mark .rightParen])) t
  | member {ts : List Token} {t : Tree} (h : Derives 17 ts t) (n : Text) :
      Derives 17 (ts ++ [.mark .dot, .name n]) (.member t n)
  | call {ts : List Token} {t : Tree} (h : Derives 17 ts t) {args : List (List Token × Tree)}
      (hargs : ∀ arg ∈ args, Derives 2 arg.1 arg.2) :
      Derives 17 (ts ++ .mark .leftParen :: (commas (args.map Prod.fst) ++ [.mark .rightParen]))
        (.call t (args.map Prod.snd))
  | construct {n : Text} (hn : n ∉ reserved) {args : List (List Token × Tree)}
      (hargs : ∀ arg ∈ args, Derives 2 arg.1 arg.2) :
      Derives 17 (.name new_ :: .name n :: .mark .leftParen ::
        (commas (args.map Prod.fst) ++ [.mark .rightParen])) (.construct n (args.map Prod.snd))
  | updateAfter {op : Mark} {ts : List Token} {t : Tree} (hop : op.isUpdate = true)
      (ht : t.isTarget = true) (h : Derives 17 ts t) :
      Derives 15 (ts ++ [.mark op]) (.update op false t)
  | updateBefore {op : Mark} {ts : List Token} {t : Tree} (hop : op.isUpdate = true)
      (ht : t.isTarget = true) (h : Derives 14 ts t) :
      Derives 15 (.mark op :: ts) (.update op true t)
  | unary {op : Mark} {ts : List Token} {t : Tree} (hop : op.isUnary = true)
      (h : Derives 14 ts t) : Derives 14 (.mark op :: ts) (.unary op t)
  | binary {op : Mark} {l : Nat} {ls rs : List Token} {lhs rhs : Tree}
      (hop : op.level = some l) (hl : Derives l ls lhs) (hr : Derives (l + 1) rs rhs) :
      Derives l (ls ++ .mark op :: rs) (.binary op lhs rhs)
  | conditional {cs vs os : List Token} {c v o : Tree} (hc : Derives 3 cs c)
      (hv : Derives 2 vs v) (ho : Derives 2 os o) :
      Derives 2 (cs ++ .mark .question :: (vs ++ .mark .colon :: os)) (.conditional c v o)
  | loosen {l : Nat} {ts : List Token} {t : Tree} (h : Derives (l + 1) ts t) : Derives l ts t

theorem Derives.loosen_le {l k : Nat} {ts : List Token} {t : Tree} (h : Derives l ts t)
    (hk : k ≤ l) : Derives k ts t := by
  induction hk using Nat.decreasingInduction with
  | self => exact h
  | of_succ k _ ih => exact .loosen ih

end Trees

section Reading

mutual

/-- An expression at the front of tokens, and what follows it.  Every call has less fuel. -/
def readExpr : Nat → List Token → Option (Tree × List Token)
  | 0, _ => none
  | n + 1, ts =>
      match readInfix n 3 ts with
      | some (c, .mark .question :: ts) =>
          match readExpr n ts with
          | some (v, .mark .colon :: ts) =>
              (readExpr n ts).map fun result => (.conditional c v result.1, result.2)
          | _ => none
      | result => result

def readInfix : Nat → Nat → List Token → Option (Tree × List Token)
  | 0, _, _ => none
  | n + 1, k, ts => (readUnary n ts).bind fun result => readMore n k result.1 result.2

def readMore : Nat → Nat → Tree → List Token → Option (Tree × List Token)
  | 0, _, _, _ => none
  | n + 1, k, t, .mark op :: ts =>
      match op.level with
      | some l =>
          if k ≤ l then
            (readInfix n (l + 1) ts).bind fun result =>
              readMore n k (.binary op t result.1) result.2
          else some (t, .mark op :: ts)
      | none => some (t, .mark op :: ts)
  | _ + 1, _, t, ts => some (t, ts)

def readUnary : Nat → List Token → Option (Tree × List Token)
  | 0, _ => none
  | n + 1, .mark op :: ts =>
      if op.isUnary then (readUnary n ts).map fun result => (.unary op result.1, result.2)
      else if op.isUpdate then
        (readUnary n ts).map fun result => (.update op true result.1, result.2)
      else readPostfix n (.mark op :: ts)
  | n + 1, ts => readPostfix n ts

def readPostfix : Nat → List Token → Option (Tree × List Token)
  | 0, _ => none
  | n + 1, ts =>
      match readSide n ts with
      | some (t, .mark op :: ts) =>
          if op.isUpdate then some (.update op false t, ts) else some (t, .mark op :: ts)
      | result => result

def readSide : Nat → List Token → Option (Tree × List Token)
  | 0, _ => none
  | n + 1, ts => (readAlone n ts).bind fun result => readSuffixes n result.1 result.2

def readSuffixes : Nat → Tree → List Token → Option (Tree × List Token)
  | 0, _, _ => none
  | n + 1, t, .mark .dot :: .name f :: ts => readSuffixes n (.member t f) ts
  | n + 1, t, .mark .leftParen :: ts =>
      (readArgs n ts).bind fun result => readSuffixes n (.call t result.1) result.2
  | _ + 1, t, ts => some (t, ts)

def readAlone : Nat → List Token → Option (Tree × List Token)
  | 0, _ => none
  | _ + 1, .number x :: ts => some (.number x, ts)
  | n + 1, .name f :: ts =>
      if f = new_ then
        match ts with
        | .name callee :: .mark .leftParen :: ts =>
            (readArgs n ts).map fun result => (.construct callee result.1, result.2)
        | _ => none
      else if f ∈ reserved then none
      else some (.name f, ts)
  | n + 1, .mark .leftParen :: ts =>
      match readExpr n ts with
      | some (t, .mark .rightParen :: ts) => some (t, ts)
      | _ => none
  | _ + 1, _ => none

def readArgs : Nat → List Token → Option (List Tree × List Token)
  | 0, _ => none
  | _ + 1, .mark .rightParen :: ts => some ([], ts)
  | n + 1, ts =>
      match readExpr n ts with
      | some (t, .mark .rightParen :: ts) => some ([t], ts)
      | some (t, .mark .comma :: ts) =>
          (readArgs n ts).map fun result => (t :: result.1, result.2)
      | _ => none

end

end Reading

section Settling

open Filter

variable {α β : Type}

def Settles (f : Nat → α) (a : α) : Prop := ∀ᶠ n in atTop, f n = a

theorem Settles.const (a : α) : Settles (fun _ => a) a := Eventually.of_forall fun _ => rfl

variable {a : α}

theorem Settles.of_succ {f g : Nat → α} (h : Settles f a) (hg : ∀ n, g (n + 1) = f n) :
    Settles g a := by
  unfold Settles at h ⊢
  rw [eventually_atTop] at h ⊢
  obtain ⟨N, hN⟩ := h
  refine ⟨N + 1, fun n hn => ?_⟩
  obtain ⟨k, rfl⟩ : ∃ k, n = k + 1 := ⟨n - 1, by omega⟩
  rw [hg, hN k (by omega)]

variable {f : Nat → α}

theorem Settles.step {g h : Nat → β} {b : β} (hf : Settles f a)
    (hh : Settles h b) (hg : ∀ n, f n = a → g (n + 1) = h n) : Settles g b := by
  unfold Settles at hf hh ⊢
  rw [eventually_atTop] at hf hh ⊢
  obtain ⟨N, hN⟩ := hf
  obtain ⟨M, hM⟩ := hh
  refine ⟨max N M + 1, fun n hn => ?_⟩
  obtain ⟨k, rfl⟩ : ∃ k, n = k + 1 := ⟨n - 1, by omega⟩
  rw [hg k (hN k (by omega)), hM k (by omega)]

theorem Settles.done {g : Nat → β} {b : β} (hf : Settles f a)
    (hg : ∀ n, f n = a → g (n + 1) = b) : Settles g b :=
  hf.step (.const b) hg

theorem Settles.map (h : Settles f a) (g : α → β) :
    Settles (fun n => g (f n)) (g a) := by
  filter_upwards [h] with n hn
  rw [hn]

theorem Settles.prod {g : Nat → β} {b : β} (hf : Settles f a)
    (hg : Settles g b) : Settles (fun n => (f n, g n)) (a, b) := by
  filter_upwards [hf, hg] with n hfn hgn
  rw [hfn, hgn]

theorem Settles.unique {a b : α} (ha : Settles f a) (hb : Settles f b) : a = b := by
  obtain ⟨n, hna, hnb⟩ := (ha.and hb).exists
  rw [← hna, hnb]

end Settling

section Complete

variable {l k : Nat} {ts rest : List Token} {t : Tree}

def Token.extends_ : Token → Bool
  | .mark .dot => true
  | .mark .leftParen => true
  | .mark op => op.isUpdate
  | _ => false

def Stops (l : Nat) (rest : List Token) : Prop :=
  ∀ token, rest.head? = some token → token.extends_ = false ∧
    ∀ op k, token = .mark op → op.level = some k → k ≤ l

def Ends (rest : List Token) : Prop :=
  ∀ token, rest.head? = some token →
    token = .mark .rightParen ∨ token = .mark .comma ∨ token = .mark .colon

theorem Ends.nil : Ends [] := by
  intro token h
  cases h

theorem Ends.cons {mark : Mark} (h : mark = .rightParen ∨ mark = .comma ∨ mark = .colon)
    (ts : List Token) : Ends (.mark mark :: ts) := by
  intro token htoken
  cases htoken
  rcases h with rfl | rfl | rfl
  · exact .inl rfl
  · exact .inr (.inl rfl)
  · exact .inr (.inr rfl)

theorem Ends.stops (h : Ends rest) (l : Nat) : Stops l rest := by
  intro token htoken
  rcases h token htoken with rfl | rfl | rfl <;>
  · refine ⟨rfl, fun op k hop hk => ?_⟩
    cases hop
    cases hk

theorem Stops.mono (h : Stops l rest) (hk : l ≤ k) : Stops k rest := by
  intro token htoken
  obtain ⟨hextends, hlevel⟩ := h token htoken
  exact ⟨hextends, fun op k' hop hk' => (hlevel op k' hop hk').trans hk⟩

def Opens (ts : List Token) : Prop :=
  ∃ token ts', ts = token :: ts' ∧ ∀ op, token = .mark op → op = .leftParen

theorem Opens.append (h : Opens ts) (rest : List Token) : Opens (ts ++ rest) := by
  obtain ⟨token, ts', rfl, hop⟩ := h
  exact ⟨token, ts' ++ rest, rfl, hop⟩

theorem readMore_stops (hstops : Stops l rest) (hk : l < k) :
    Settles (fun n => readMore n k t rest) (some (t, rest)) := by
  refine (Settles.const _).of_succ (fun n => ?_)
  cases rest with
  | nil => rfl
  | cons token rest =>
      cases token with
      | mark op =>
          rw [readMore]
          cases hlevel : op.level with
          | none => rfl
          | some l' =>
              have hle := (hstops _ rfl).2 op l' rfl hlevel
              simp only [if_neg (by omega : ¬ k ≤ l')]
      | _ => rfl

theorem readSuffixes_stops (hstops : Stops l rest) :
    Settles (fun n => readSuffixes n t rest) (some (t, rest)) := by
  refine (Settles.const _).of_succ (fun n => ?_)
  cases rest with
  | nil => rfl
  | cons token rest =>
      have hextends := (hstops _ rfl).1
      cases token with
      | mark op =>
          cases op <;> first | rfl | cases hextends
      | _ => rfl

/-- Tokens of a level are read as their tree, whatever follows. -/
structure Reads (l : Nat) (ts : List Token) (t : Tree) : Prop where
  side : 17 ≤ l → Opens ts ∧ ∀ rest out, Settles (fun n => readSuffixes n t rest) out →
    Settles (fun n => readSide n (ts ++ rest)) out
  unary : 14 ≤ l → ∀ rest, Stops l rest →
    Settles (fun n => readUnary n (ts ++ rest)) (some (t, rest))
  infix_ : 3 ≤ l → ∀ k rest out, k ≤ l → Stops l rest →
    Settles (fun n => readMore n k t rest) out →
    Settles (fun n => readInfix n k (ts ++ rest)) out
  expr : ∀ rest, Ends rest → Settles (fun n => readExpr n (ts ++ rest)) (some (t, rest))

theorem Mark.level_le {op : Mark} (h : op.level = some k) : k ≤ 12 := by
  cases op <;> cases h <;> decide

theorem Stops.tight (h : Stops l rest) (hk : 12 ≤ k) : Stops k rest := fun token htoken =>
  ⟨(h token htoken).1, fun _ _ _ hlevel => (Mark.level_le hlevel).trans hk⟩

theorem readExpr_of_operators (h : Settles (fun n => readInfix n 3 ts) (some (t, rest)))
    (hrest : Ends rest) : Settles (fun n => readExpr n ts) (some (t, rest)) := by
  refine h.done (fun n hn => ?_)
  rw [readExpr, hn]
  cases rest with
  | nil => rfl
  | cons token rest => rcases hrest token rfl with rfl | rfl | rfl <;> rfl

theorem readInfix_of_unary {out : Option (Tree × List Token)}
    (h : Settles (fun n => readUnary n ts) (some (t, rest)))
    (hmore : Settles (fun n => readMore n k t rest) out) :
    Settles (fun n => readInfix n k ts) out := by
  refine h.step hmore (fun n hn => ?_)
  rw [readInfix, hn, Option.bind_some]

theorem readUnary_of_side (hopens : Opens ts) (hstops : Stops l rest)
    (h : Settles (fun n => readSide n ts) (some (t, rest))) :
    Settles (fun n => readUnary n ts) (some (t, rest)) := by
  have hpostfix : Settles (fun n => readPostfix n ts) (some (t, rest)) := by
    refine h.done (fun n hn => ?_)
    rw [readPostfix, hn]
    cases rest with
    | nil => rfl
    | cons token rest =>
        have hextends := (hstops token rfl).1
        cases token with
        | mark op => cases op <;> first | rfl | cases hextends
        | _ => rfl
  refine hpostfix.of_succ (fun n => ?_)
  obtain ⟨token, ts', rfl, hop⟩ := hopens
  cases token with
  | mark op =>
      rw [hop op rfl]
      rfl
  | _ => rfl

theorem Reads.of_expr (hl : l < 3)
    (h : ∀ rest, Ends rest → Settles (fun n => readExpr n (ts ++ rest)) (some (t, rest))) :
    Reads l ts t where
  side h17 := by omega
  unary h14 := by omega
  infix_ h3 := by omega
  expr := h

theorem Reads.of_operators (h3 : 3 ≤ l) (hl : l < 14)
    (h : ∀ k rest out, k ≤ l → Stops l rest → Settles (fun n => readMore n k t rest) out →
      Settles (fun n => readInfix n k (ts ++ rest)) out) : Reads l ts t where
  side h17 := by omega
  unary h14 := by omega
  infix_ _ := h
  expr rest hrest := by
    have hmore := readMore_stops (t := t) (hrest.stops 2) (Nat.lt_succ_self 2)
    exact readExpr_of_operators (h 3 rest _ h3 (hrest.stops l) hmore) hrest

theorem Reads.of_unary (h14 : 14 ≤ l) (hl : l < 17)
    (h : ∀ rest, Stops l rest → Settles (fun n => readUnary n (ts ++ rest)) (some (t, rest))) :
    Reads l ts t where
  side h17 := by omega
  unary _ := h
  infix_ _ k rest out _ hstops hmore := readInfix_of_unary (h rest hstops) hmore
  expr rest hrest := by
    have hmore := readMore_stops (t := t) (hrest.stops 2) (Nat.lt_succ_self 2)
    exact readExpr_of_operators (readInfix_of_unary (h rest (hrest.stops l)) hmore) hrest

theorem Reads.of_side (hopens : Opens ts)
    (h : ∀ rest out, Settles (fun n => readSuffixes n t rest) out →
      Settles (fun n => readSide n (ts ++ rest)) out) : Reads l ts t := by
  have hunary : ∀ rest, Stops l rest →
      Settles (fun n => readUnary n (ts ++ rest)) (some (t, rest)) := fun rest hstops =>
    readUnary_of_side (hopens.append rest) hstops (h rest _ (readSuffixes_stops hstops))
  refine ⟨fun _ => ⟨hopens, h⟩, fun _ => hunary, ?_, ?_⟩
  · exact fun _ k rest out _ hstops hmore => readInfix_of_unary (hunary rest hstops) hmore
  · intro rest hrest
    have hmore := readMore_stops (t := t) (hrest.stops 2) (Nat.lt_succ_self 2)
    exact readExpr_of_operators (readInfix_of_unary (hunary rest (hrest.stops l)) hmore) hrest

theorem Reads.loosen (h : Reads (l + 1) ts t) : Reads l ts t where
  side _ := h.side (by omega)
  unary h14 rest hstops := h.unary (by omega) rest (hstops.mono (Nat.le_succ l))
  infix_ h3 k rest out hk hstops :=
    h.infix_ (by omega) k rest out (by omega) (hstops.mono (Nat.le_succ l))
  expr := h.expr

theorem Reads.of_alone (hopens : Opens ts)
    (h : ∀ rest, Settles (fun n => readAlone n (ts ++ rest)) (some (t, rest))) :
    Reads l ts t := by
  refine .of_side hopens (fun rest out hsuffixes => ?_)
  refine (h rest).step hsuffixes (fun n hn => ?_)
  rw [readSide, hn, Option.bind_some]

theorem Derives.head (h : Derives l ts t) :
    ∃ token ts', ts = token :: ts' ∧ token ≠ .mark .rightParen := by
  have hfront : ∀ {xs : List Token} (ys : List Token),
      (∃ token ts', xs = token :: ts' ∧ token ≠ .mark .rightParen) →
        ∃ token ts', xs ++ ys = token :: ts' ∧ token ≠ .mark .rightParen := by
    rintro xs ys ⟨token, ts', rfl, hne⟩
    exact ⟨token, ts' ++ ys, rfl, hne⟩
  have hmark : ∀ {op : Mark}, op ≠ .rightParen → Token.mark op ≠ .mark .rightParen :=
    fun hop heq => hop (Token.mark.inj heq)
  induction h with
  | number _ | name _ | construct _ _ _ => exact ⟨_, _, rfl, nofun⟩
  | group _ _ => exact ⟨_, _, rfl, hmark (by decide)⟩
  | member _ _ ih => exact hfront _ ih
  | call _ _ ih _ => exact hfront _ ih
  | updateAfter _ _ _ ih => exact hfront _ ih
  | updateBefore hop _ _ _ =>
      refine ⟨_, _, rfl, hmark ?_⟩
      rintro rfl
      cases hop
  | unary hop _ _ =>
      refine ⟨_, _, rfl, hmark ?_⟩
      rintro rfl
      cases hop
  | binary _ _ _ ih _ => exact hfront _ ih
  | conditional _ _ _ ih _ _ => exact hfront _ ih
  | loosen _ ih => exact ih

theorem readArgs_first {token : Token} (hne : token ≠ .mark .rightParen) (n : Nat) :
    readArgs (n + 1) (token :: ts) =
      match readExpr n (token :: ts) with
      | some (t, .mark .rightParen :: ts) => some ([t], ts)
      | some (t, .mark .comma :: ts) =>
          (readArgs n ts).map fun result => (t :: result.1, result.2)
      | _ => none := by
  rw [readArgs]
  rintro ts heq
  exact hne (List.cons.inj heq).1

theorem readArgs_settles {args : List (List Token × Tree)}
    (hargs : ∀ arg ∈ args, Derives 2 arg.1 arg.2) (hreads : ∀ arg ∈ args, Reads 2 arg.1 arg.2)
    (rest : List Token) :
    Settles (fun n => readArgs n (commas (args.map Prod.fst) ++ .mark .rightParen :: rest))
      (some (args.map Prod.snd, rest)) := by
  induction args with
  | nil => exact (Settles.const _).of_succ (fun n => rfl)
  | cons arg args ih =>
      obtain ⟨token, ts', hts, hne⟩ := (hargs arg List.mem_cons_self).head
      have hexpr := (hreads arg List.mem_cons_self).expr
      cases args with
      | nil =>
          refine (hexpr _ (.cons (.inl rfl) rest)).done (fun n hn => ?_)
          rw [List.map_cons, List.map_nil, commas, hts, List.cons_append, readArgs_first hne,
            ← List.cons_append, ← hts, hn]
          rfl
      | cons other args =>
          have hrest := ih (fun a ha => hargs a (List.mem_cons_of_mem _ ha))
            (fun a ha => hreads a (List.mem_cons_of_mem _ ha))
          have htext : commas ((arg :: other :: args).map Prod.fst) ++ .mark .rightParen :: rest =
              token :: (ts' ++ .mark .comma :: (commas ((other :: args).map Prod.fst) ++
                .mark .rightParen :: rest)) := by
            rw [List.map_cons, List.map_cons, commas, hts, List.append_assoc]
            · rfl
            · exact List.cons_ne_nil _ _
          have hfirst := hexpr (.mark .comma :: (commas ((other :: args).map Prod.fst) ++
            .mark .rightParen :: rest)) (.cons (.inr (.inl rfl)) _)
          have hmore := hrest.map fun result =>
            result.map fun result => (arg.2 :: result.1, result.2)
          refine hfirst.step hmore (fun n hn => ?_)
          rw [hts] at hn
          rw [htext, readArgs_first hne]
          rw [List.cons_append] at hn
          rw [hn]

theorem Derives.reads (h : Derives l ts t) : Reads l ts t := by
  induction h with
  | number x =>
      refine .of_alone ⟨_, _, rfl, nofun⟩ (fun rest => ?_)
      exact (Settles.const _).of_succ (fun n => rfl)
  | @name n hn =>
      refine .of_alone ⟨_, _, rfl, nofun⟩ (fun rest => ?_)
      refine (Settles.const _).of_succ (fun k => ?_)
      have hnew : n ≠ new_ := by
        rintro rfl
        exact hn (by decide)
      rw [List.cons_append, List.nil_append, readAlone.eq_def]
      simp only [hnew, hn, if_false]
  | @group ts t _ ih =>
      refine .of_alone ⟨_, _, rfl, fun op hop => (Token.mark.inj hop).symm⟩ (fun rest => ?_)
      refine (ih.expr (.mark .rightParen :: rest) (.cons (.inl rfl) rest)).done (fun n hn => ?_)
      rw [List.cons_append, List.append_assoc, List.singleton_append, readAlone, hn]
  | @member ts t _ n ih =>
      obtain ⟨hopens, hside⟩ := ih.side (by decide)
      refine .of_side (hopens.append _) (fun rest out hsuffixes => ?_)
      rw [List.append_assoc]
      exact hside _ out (hsuffixes.of_succ (fun n => rfl))
  | @call ts t _ args hargs ih ihargs =>
      obtain ⟨hopens, hside⟩ := ih.side (by decide)
      refine .of_side (hopens.append _) (fun rest out hsuffixes => ?_)
      rw [List.append_assoc, List.cons_append, List.append_assoc, List.singleton_append]
      refine hside _ out ?_
      refine (readArgs_settles hargs ihargs rest).step hsuffixes (fun n hn => ?_)
      rw [readSuffixes, hn, Option.bind_some]
  | @construct n _ args hargs ihargs =>
      refine .of_alone ⟨_, _, rfl, nofun⟩ (fun rest => ?_)
      refine (readArgs_settles hargs ihargs rest).done (fun n hn => ?_)
      rw [List.cons_append, List.cons_append, List.cons_append, List.append_assoc,
        List.singleton_append, readAlone, if_pos rfl, hn, Option.map_some]
  | @updateAfter op ts t hop _ _ ih =>
      obtain ⟨hopens, hside⟩ := ih.side (by decide)
      refine .of_unary (by decide) (by decide) (fun rest _ => ?_)
      have hpostfix : Settles (fun n => readPostfix n (ts ++ [.mark op] ++ rest))
          (some (.update op false t, rest)) := by
        rw [List.append_assoc, List.singleton_append]
        have hsuffixes : Settles (fun n => readSuffixes n t (.mark op :: rest))
            (some (t, .mark op :: rest)) := by
          refine (Settles.const _).of_succ (fun n => ?_)
          cases op <;> first | rfl | cases hop
        refine (hside _ _ hsuffixes).done (fun n hn => ?_)
        rw [readPostfix, hn]
        dsimp only
        rw [if_pos hop]
      refine hpostfix.of_succ (fun n => ?_)
      obtain ⟨token, ts', rfl, hmark⟩ := hopens
      cases token with
      | mark op' =>
          rw [hmark op' rfl]
          rfl
      | _ => rfl
  | @updateBefore op ts t hop _ _ ih =>
      refine .of_unary (by decide) (by decide) (fun rest hstops => ?_)
      refine (ih.unary (by decide) rest (hstops.tight (by decide))).done (fun n hn => ?_)
      have hnot : op.isUnary = false := by cases op <;> first | rfl | cases hop
      rw [List.cons_append, readUnary, if_neg (by simp [hnot]), if_pos hop, hn, Option.map_some]
  | @unary op ts t hop _ ih =>
      refine .of_unary (by decide) (by decide) (fun rest hstops => ?_)
      refine (ih.unary (by decide) rest hstops).done (fun n hn => ?_)
      rw [List.cons_append, readUnary, if_pos hop, hn, Option.map_some]
  | @binary op l ls rs lhs rhs hop _ _ ihl ihr =>
      have hlow : 3 ≤ l := by cases op <;> cases hop <;> decide
      have hhigh : l ≤ 12 := Mark.level_le hop
      refine .of_operators hlow (by omega) (fun k rest out hk hstops hmore => ?_)
      have hnext : Stops l (.mark op :: (rs ++ rest)) := by
        intro token htoken
        cases htoken
        constructor
        · cases op <;> first | rfl | cases hop
        · intro op' k' hop' hk'
          cases hop'
          exact (Option.some.inj (hk'.symm.trans hop)).le
      have hright := ihr.infix_ (by omega) (l + 1) rest _ (le_refl _)
        (hstops.mono (Nat.le_succ l)) (readMore_stops hstops (Nat.lt_succ_self l))
      rw [List.append_assoc, List.cons_append]
      refine ihl.infix_ hlow k _ out hk hnext ?_
      refine hright.step hmore (fun n hn => ?_)
      rw [readMore]
      simp only [hop, if_pos hk]
      rw [hn, Option.bind_some]
  | @conditional cs vs os c v o _ _ _ ihc ihv iho =>
      refine .of_expr (by decide) (fun rest hrest => ?_)
      have hstops : Stops 2 (.mark .question :: (vs ++ .mark .colon :: (os ++ rest))) := by
        intro token htoken
        cases htoken
        exact ⟨rfl, fun op k hop hk => by cases hop; cases hk⟩
      have hcondition := ihc.infix_ (by decide) 3 _ _ (le_refl _) (hstops.mono (by decide))
        (readMore_stops hstops (Nat.lt_succ_self 2))
      have hthen := ihv.expr (.mark .colon :: (os ++ rest)) (.cons (.inr (.inr rfl)) _)
      have helse := iho.expr rest hrest
      rw [List.append_assoc, List.cons_append, List.append_assoc, List.cons_append]
      refine (hcondition.prod (hthen.prod helse)).done (fun n hn => ?_)
      obtain ⟨hc, hn⟩ := Prod.mk.inj hn
      obtain ⟨hv, ho⟩ := Prod.mk.inj hn
      rw [readExpr, hc]
      dsimp only
      rw [hv]
      dsimp only
      rw [ho, Option.map_some]
  | loosen _ ih => exact ih.loosen

theorem Derives.unique {t' : Tree} (h : Derives 2 ts t) (h' : Derives 2 ts t') : t = t' := by
  have hread := h.reads.expr [] .nil
  have hread' := h'.reads.expr [] .nil
  exact (Prod.mk.inj (Option.some.inj (hread.unique hread'))).1

end Complete

section Counting

mutual

/-- How often a tree has the mark, if it is one of updates or fields. -/
def Tree.occurrences (mark : Mark) : Tree → Nat
  | .number _ => 0
  | .name _ => 0
  | .unary _ operand => operand.occurrences mark
  | .update op _ operand => operand.occurrences mark + if op = mark then 1 else 0
  | .binary _ lhs rhs => lhs.occurrences mark + rhs.occurrences mark
  | .conditional c v o =>
      c.occurrences mark + (v.occurrences mark + o.occurrences mark)
  | .member base _ => base.occurrences mark + if .dot = mark then 1 else 0
  | .call callee args => callee.occurrences mark + occurrencesOf mark args
  | .construct _ args => occurrencesOf mark args

def occurrencesOf (mark : Mark) : List Tree → Nat
  | [] => 0
  | t :: ts => t.occurrences mark + occurrencesOf mark ts

end

/-- A mark that stands for updates or fields, and for nothing else. -/
structure Mark.Counts (mark : Mark) : Prop where
  comma : mark ≠ .comma
  leftParen : mark ≠ .leftParen
  rightParen : mark ≠ .rightParen
  question : mark ≠ .question
  colon : mark ≠ .colon
  unary : mark.isUnary = false
  binary : mark.level = none
  update : mark.isUpdate = true ∨ mark = .dot

theorem Mark.counts_decrement : Mark.decrement.Counts := by constructor <;> decide

theorem Mark.counts_dot : Mark.dot.Counts := by constructor <;> decide

theorem occurrences_commas {mark : Mark} (hmark : mark.Counts) {args : List (List Token × Tree)}
    (h : ∀ arg ∈ args, occurrences mark arg.1 = arg.2.occurrences mark) :
    occurrences mark (commas (args.map Prod.fst)) = occurrencesOf mark (args.map Prod.snd) := by
  induction args with
  | nil => rfl
  | cons arg args ih =>
      have hfirst := h arg List.mem_cons_self
      have hrest := ih (fun a ha => h a (List.mem_cons_of_mem _ ha))
      cases args with
      | nil =>
          rw [List.map_cons, List.map_nil, commas, hfirst, List.map_cons, List.map_nil]
          rfl
      | cons other args =>
          rw [List.map_cons, List.map_cons, commas, occurrences_append, occurrences_mark,
            if_neg hmark.comma.symm, ← List.map_cons, hrest, hfirst, List.map_cons,
            Nat.add_zero]
          · rfl
          · exact List.cons_ne_nil _ _

theorem Derives.occurrences_eq {mark : Mark} (hmark : mark.Counts) {l : Nat} {ts : List Token}
    {t : Tree} (h : Derives l ts t) : occurrences mark ts = t.occurrences mark := by
  have hother : ∀ op, op ≠ mark → ∀ ts, occurrences mark (.mark op :: ts) =
      occurrences mark ts := by
    intro op hop ts
    rw [occurrences_mark, if_neg hop, Nat.add_zero]
  induction h with
  | number x => exact occurrences_number _ _ _
  | name hn => exact occurrences_name _ _ _
  | group _ ih =>
      rw [hother _ hmark.leftParen.symm, occurrences_append, hother _ hmark.rightParen.symm, ih]
      rfl
  | member _ n ih =>
      rw [occurrences_append, occurrences_mark, occurrences_name, occurrences_nil, ih,
        Tree.occurrences, Nat.zero_add]
  | call _ _ ih ihargs =>
      rw [occurrences_append, hother _ hmark.leftParen.symm, occurrences_append,
        hother _ hmark.rightParen.symm, occurrences_commas hmark ihargs, ih]
      rfl
  | construct hn _ ihargs =>
      rw [occurrences_name, occurrences_name, hother _ hmark.leftParen.symm, occurrences_append,
        hother _ hmark.rightParen.symm, occurrences_commas hmark ihargs]
      rfl
  | updateAfter _ _ _ ih =>
      rw [occurrences_append, occurrences_mark, occurrences_nil, ih, Tree.occurrences,
        Nat.zero_add]
  | updateBefore _ _ _ ih => rw [occurrences_mark, ih, Tree.occurrences]
  | @unary op _ _ hop _ ih =>
      have hne : op ≠ mark := by
        rintro rfl
        rw [hmark.unary] at hop
        cases hop
      rw [hother op hne, ih, Tree.occurrences]
  | @binary op l _ _ _ _ hop _ _ ihl ihr =>
      have hne : op ≠ mark := by
        rintro rfl
        rw [hmark.binary] at hop
        cases hop
      rw [occurrences_append, hother op hne, ihl, ihr, Tree.occurrences]
  | conditional _ _ _ ihc ihv iho =>
      rw [occurrences_append, hother _ hmark.question.symm, occurrences_append,
        hother _ hmark.colon.symm, ihc, ihv, iho, Tree.occurrences]
  | loosen _ ih => exact ih

end Counting

section Parsing

def Parses (abc : Alphabet) (text : Text) (t : Tree) : Prop :=
  ∃ ts, tokens abc text = some ts ∧ Derives 2 ts t

variable {abc : Alphabet}

theorem Parses.unique {text : Text} {t t' : Tree} (h : Parses abc text t)
    (h' : Parses abc text t') : t = t' := by
  obtain ⟨ts, hts, hderives⟩ := h
  obtain ⟨ts', hts', hderives'⟩ := h'
  obtain rfl := Option.some.inj (hts.symm.trans hts')
  exact hderives.unique hderives'

variable {ls : List (Lexeme abc)}

theorem parses_written {t : Tree} (h : Apart ls)
    (ht : Derives 2 (ls.filterMap Lexeme.token) t) : Parses abc (written ls) t :=
  ⟨_, tokens_written h, ht⟩

theorem apart_of_parses {t : Tree}
    (htidy : Tidy False ls) (hdecrements : t.occurrences .decrement = 0)
    (hpoints : occurrences .dot (ls.filterMap Lexeme.token) = t.occurrences .dot)
    (h : Parses abc (written ls) t) : Apart ls := by
  obtain ⟨ts, hts, hderives⟩ := h
  have hdec := hderives.occurrences_eq Mark.counts_decrement
  have hdot := hderives.occurrences_eq Mark.counts_dot
  rcases tokens_tidy htidy hts with ⟨hapart, -⟩ | hpos | hlt
  · exact hapart
  · omega
  · omega

end Parsing

end Ecma
end Library
