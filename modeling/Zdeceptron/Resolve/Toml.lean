import Zdeceptron.Resolve.Packages

/-!
# The package mapping and TOML

A text is read as TOML reads it where every line is plain: a key that is bare, or between
quotation marks and without an escape, and a target without one.

* `parse_holds_iff`: a text that is read agrees with TOML exactly when every line is plain and the
  table is opened no more than once.
-/

namespace Zdeceptron
namespace Resolve
namespace Packages

open Library Library.TomlText
open Store (isWhitespace)

section Plain

variable {c : Char}

theorem trim_trimEnd {b : Text} (hb : IsBlank b) (hc : isWhitespace c = false)
    (t : Text) : trim (trimEnd (b ++ c :: t)) = c :: trimEnd t := by
  rw [trimEnd_append hc, trim_blank_append hb, trim_cons hc, trimEnd, trimEnd,
    List.rdropWhile_idempotent]

theorem trim_comment {b comment : Text} (hb : IsBlank b) (hcomment : Comment comment) :
    trim (trimEnd (b ++ comment)) = [] ∨ (trim (trimEnd (b ++ comment))).head? = some '#' := by
  cases hcomment with
  | none =>
      rw [List.append_nil, trimEnd_blank hb]
      exact Or.inl (by simp [trim])
  | some h =>
      rw [trim_trimEnd hb (by simp [isWhitespace])]
      exact Or.inr rfl

inductive PlainKey : Text → Text → Prop
  | bare {t : Text} (hne : t ≠ []) (h : ∀ c ∈ t, isBare c = true) : PlainKey t t
  | quoted {t : Text}
      (h : ∀ c ∈ t, isPrintable c = true ∧ c ≠ '"' ∧ c ≠ '\\' ∧ c ≠ '=') :
      PlainKey ('"' :: (t ++ ['"'])) t

/-- A line without an escape, a dot or another kind of quotation mark outside its comment,
where only spaces and tabs stand between the parts. -/
inductive PlainLine : Text → Prop
  | nothing {before comment : Text} (hbefore : IsBlank before) (hcomment : Comment comment) :
      PlainLine (before ++ comment)
  | table {before left right after : Text} (hbefore : IsBlank before) (hleft : IsBlank left)
      (hright : IsBlank right) (hafter : IsBlank after) :
      PlainLine (before ++ '[' :: (left ++ (PACKAGES ++ (right ++ ']' :: after))))
  | entry {before key name left right target after comment : Text} (hbefore : IsBlank before)
      (hkey : PlainKey key name) (hleft : IsBlank left) (hright : IsBlank right)
      (htarget : ∀ c ∈ target, isPrintable c = true ∧ c ≠ '"' ∧ c ≠ '\\')
      (hafter : IsBlank after) (hcomment : Comment comment) :
      PlainLine (before ++ (key ++ (left ++ '=' ::
        (right ++ ('"' :: (target ++ ['"']) ++ (after ++ comment))))))

theorem isWhitespace_of_isBare (h : isBare c = true) : isWhitespace c = false := by
  simp only [isBare, Bool.or_eq_true, isAlphanum_iff, beq_iff_eq] at h
  have hspan : 45 ≤ c.toNat ∧ c.toNat ≤ 122 := by
    rcases h with ((h | h) | rfl) | rfl
    · omega
    · omega
    · simp
    · simp
  simp only [isWhitespace, Bool.or_eq_false_iff, Bool.and_eq_false_iff, decide_eq_false_iff_not,
    beq_eq_false_iff_ne]
  omega

variable {key name : Text}

theorem keyed_of_simple (h : SimpleKey key name) (hequals : '=' ∉ name) :
    Keyed key := by
  cases h with
  | bare hne h =>
      refine ⟨Solid.of_forall hne fun c hc => isWhitespace_of_isBare (h c hc), ?_, ?_, hequals⟩
      · intro hhead
        have := h _ (List.mem_of_head? hhead)
        simp [isBare] at this
      · intro hhead
        have := h _ (List.mem_of_head? hhead)
        simp [isBare] at this
  | basic h =>
      refine ⟨Solid.quoted (by simp [isWhitespace]) _, by simp, by simp, ?_⟩
      intro hmem
      simp only [List.mem_cons, List.mem_append, List.not_mem_nil, or_false] at hmem
      rcases hmem with hmem | hmem | hmem
      · simp at hmem
      · exact hequals (mem_values h hmem (by simp) (by simp [hexDigit]) (Or.inl rfl))
      · simp at hmem
  | literal h =>
      refine ⟨Solid.quoted (by simp [isWhitespace]) _, by simp, by simp, ?_⟩
      rw [values_of_plain fun p hp => (h p hp).plain.imp fun _ hc => hc.1] at hequals
      intro hmem
      simp only [List.mem_cons, List.mem_append, List.not_mem_nil, or_false] at hmem
      rcases hmem with hmem | hmem | hmem
      · simp at hmem
      · exact hequals hmem
      · simp at hmem

theorem unquoteKey_quoted (t : Text) (line : Nat) :
    unquoteKey ('"' :: (t ++ ['"'])) line = .ok t := by
  rw [unquoteKey, if_pos rfl, stripSuffix_append]

theorem unquoteKey_plain (hc : c ≠ '"') (t : Text) (line : Nat) :
    unquoteKey (c :: t) line = .ok (c :: t) := by
  rw [unquoteKey, if_neg hc]

theorem unquoteKey_bare {t : Text} (hne : t ≠ []) (h : ∀ c ∈ t, isBare c = true) (line : Nat) :
    unquoteKey t line = .ok t := by
  cases t with
  | nil => exact absurd rfl hne
  | cons c t =>
      refine unquoteKey_plain ?_ t line
      rintro rfl
      have := h _ List.mem_cons_self
      simp [isBare] at this

theorem unquoteKey_simple (line : Nat) (h : SimpleKey key name)
    (hequals : '=' ∉ name) : ∃ n, unquoteKey key line = .ok n ∧ name.length ≤ n.length ∧
      (n.length ≤ name.length → PlainKey key n) := by
  cases h with
  | bare hne h => exact ⟨key, unquoteKey_bare hne h line, Nat.le_refl _, fun _ => .bare hne h⟩
  | @basic ps h =>
      refine ⟨texts ps, unquoteKey_quoted _ line, length_values_le ps, fun hlength => ?_⟩
      have hplain := plain_of_length hlength
      refine .quoted fun c hc => ?_
      obtain ⟨p, hp, hmem⟩ := List.mem_flatMap.mp hc
      obtain ⟨d, rfl⟩ := hplain p hp
      obtain rfl := List.mem_singleton.mp hmem
      refine ⟨(h _ hp).1, (h _ hp).2.1, (h _ hp).2.2, ?_⟩
      rintro rfl
      rw [values_of_plain hplain] at hequals
      exact hequals hc
  | @literal ps h =>
      refine ⟨_, unquoteKey_plain (by simp) _ line, ?_, fun hlength => ?_⟩
      all_goals rw [values_of_plain fun p hp => (h p hp).plain.imp fun _ hc => hc.1] at *
      all_goals simp only [List.length_cons, List.length_append, List.length_nil] at *
      all_goals omega

theorem PlainKey.simple (h : PlainKey key name) :
    SimpleKey key name ∧ '=' ∉ name ∧ ∀ line, unquoteKey key line = .ok name := by
  cases h with
  | bare hne h =>
      refine ⟨.bare hne h, fun hmem => ?_, unquoteKey_bare hne h⟩
      have := h _ hmem
      simp [isBare] at this
  | quoted h =>
      refine ⟨?_, fun hmem => (h _ hmem).2.2.2 rfl, unquoteKey_quoted name⟩
      have hplain : ∀ p ∈ name.map Piece.plain, p.IsBasic := by
        intro p hp
        obtain ⟨c, hc, rfl⟩ := List.mem_map.mp hp
        exact ⟨(h c hc).1, (h c hc).2.1, (h c hc).2.2.1⟩
      have := SimpleKey.basic hplain
      rwa [texts_plain, values_plain] at this

variable {line : Nat}

theorem unquoteValue_basic {target tail : Text} (htarget : '"' ∉ target)
    (htail : trim tail = [] ∨ (trim tail).head? = some '#') :
    unquoteValue ('"' :: (target ++ '"' :: tail)) line = .ok target := by
  rw [unquoteValue, splitOnce_append tail htarget]
  rcases htail with h | h <;> simp [h]

theorem unquoteValue_single (t : Text) (line : Nat) (target : Text) :
    unquoteValue ('\'' :: t) line ≠ .ok target := by
  simp [unquoteValue, refused]

theorem unquoteValue_three (t : Text) (line : Nat) (target : Text) :
    unquoteValue ('"' :: '"' :: '"' :: t) line ≠ .ok target := by
  have htail : trim ('"' :: t) ≠ [] ∧ (trim ('"' :: t)).head? ≠ some '#' := by
    rw [trim_cons (by simp [isWhitespace])]
    simp
  have hsplit : splitOnce '"' ('"' :: '"' :: t) = some ([], '"' :: t) := by
    simp [splitOnce]
  rw [unquoteValue, hsplit]
  simp [htail, refused]

theorem unquoteValue_string {string value right after comment target : Text}
    (h : StringText string value) (hvalue : '"' ∉ value) (hright : IsBlank right)
    (hafter : IsBlank after) (hcomment : Comment comment)
    (hok : unquoteValue (trim (trimEnd (right ++ (string ++ (after ++ comment))))) line =
      .ok target) :
    ∃ ps, (∀ p ∈ ps, p.IsBasic) ∧ string = '"' :: (texts ps ++ ['"']) ∧ value = values ps ∧
      target = texts ps := by
  cases h with
  | @basic ps h =>
      have htexts : '"' ∉ texts ps := fun hmem =>
        hvalue (mem_values h hmem (by simp) (by simp [hexDigit]) (Or.inr rfl))
      refine ⟨ps, h, rfl, rfl, ?_⟩
      rw [List.cons_append, trim_trimEnd hright (by simp [isWhitespace]), List.append_assoc,
        List.singleton_append, trimEnd_append (by simp [isWhitespace]),
        unquoteValue_basic htexts (trim_comment hafter hcomment)] at hok
      exact (Except.ok.inj hok).symm
  | literal h =>
      rw [List.cons_append, trim_trimEnd hright (by simp [isWhitespace])] at hok
      exact absurd hok (unquoteValue_single _ _ _)
  | basicLines h =>
      rw [List.cons_append, trim_trimEnd hright (by simp [isWhitespace]), List.cons_append,
        List.cons_append, trimEnd_cons (by simp [isWhitespace]),
        trimEnd_cons (by simp [isWhitespace])] at hok
      exact absurd hok (unquoteValue_three _ _ _)
  | literalLines h =>
      rw [List.cons_append, trim_trimEnd hright (by simp [isWhitespace])] at hok
      exact absurd hok (unquoteValue_single _ _ _)

theorem readLine_entry_ok {b key left rest : Text} {inPackages : Bool}
    {r : Reading} (hb : IsBlank b) (hkey : Keyed key) (hleft : IsBlank left)
    (h : readLine line inPackages (b ++ (key ++ (left ++ '=' :: rest))) = .ok r) :
    inPackages = true ∧ ∃ name target, unquoteKey key line = .ok name ∧
      unquoteValue (trim (trimEnd rest)) line = .ok target ∧ r = .entry name target := by
  rw [readLine_entry hb hkey hleft] at h
  cases inPackages with
  | false =>
      rw [if_pos rfl] at h
      cases h
  | true =>
      rw [if_neg (by simp)] at h
      cases hname : unquoteKey key line with
      | error e =>
          rw [hname] at h
          cases h
      | ok name =>
          cases htarget : unquoteValue (trim (trimEnd rest)) line with
          | error e =>
              rw [hname, htarget] at h
              cases h
          | ok target =>
              rw [hname, htarget] at h
              exact ⟨rfl, name, target, rfl, rfl, (Except.ok.inj h).symm⟩

theorem readLine_ne_lines {b key name left right more : Text} {inPackages : Bool}
    {r : Reading} (hb : IsBlank b) (hkey : SimpleKey key name) (hequals : '=' ∉ name)
    (hleft : IsBlank left) (hright : IsBlank right)
    (hmore : ∃ x, more = '"' :: '"' :: '"' :: x ∨ more = '\'' :: '\'' :: '\'' :: x) :
    readLine line inPackages (b ++ (key ++ (left ++ '=' :: (right ++ more)))) ≠ .ok r := by
  intro h
  obtain ⟨-, n, target, -, htarget, -⟩ :=
    readLine_entry_ok hb (keyed_of_simple hkey hequals) hleft h
  obtain ⟨x, rfl | rfl⟩ := hmore
  · rw [trim_trimEnd hright (by simp [isWhitespace]), trimEnd_cons (by simp [isWhitespace]),
      trimEnd_cons (by simp [isWhitespace])] at htarget
    exact unquoteValue_three _ _ _ htarget
  · rw [trim_trimEnd hright (by simp [isWhitespace])] at htarget
    exact unquoteValue_single _ _ _ htarget

end Plain

section Agreement

def Reading.pair : Reading → Option (Text × Text)
  | .entry name target => some (name, target)
  | _ => none

def Reading.item : Reading → Option Item
  | .nothing => none
  | .table => some (.table [PACKAGES])
  | .entry name target => some (.pair [name] target)

def Reading.isTable : Reading → Bool
  | .table => true
  | _ => false

def pairs (rs : List Reading) : List (Text × Text) := rs.filterMap Reading.pair

@[simp] theorem pairs_table (rs : List Reading) : pairs (.table :: rs) = pairs rs := rfl

@[simp] theorem pairs_entry (name target : Text) (rs : List Reading) :
    pairs (.entry name target :: rs) = (name, target) :: pairs rs := rfl

def targets (ps : List (Text × Text)) (name : Text) : List Text :=
  (ps.filter fun p => p.1 = name).map Prod.snd

/-- The text is TOML that holds nothing but the one table of strings, and the entries are the
table's; a key may be repeated. -/
def Holds (text : Text) (entries : Entries) : Prop :=
  ∃ items ps, Document text items ∧
    (items = [] ∧ ps = [] ∨
      items = .table [PACKAGES] :: ps.map (fun p => Item.pair [p.1] p.2)) ∧
    ∀ name, entries.lookup name = if targets ps name = [] then none else some (targets ps name)

def opens (l : Text) : Bool := (trim l).head? == some '['

def Plain (text : Text) : Prop :=
  (∀ l ∈ lines text, PlainLine l) ∧ (lines text).countP opens ≤ 1

def add (entries : Entries) : Reading → Entries
  | .entry name target => push entries name target
  | _ => entries

inductive Reads : Bool → List Text → List Reading → Prop
  | nil {b : Bool} : Reads b [] []
  | cons {b : Bool} {line : Nat} {l : Text} {r : Reading} {ls : List Text} {rs : List Reading}
      (h : readLine line b l = .ok r) (hrest : Reads (b || r.isTable) ls rs) :
      Reads b (l :: ls) (r :: rs)

variable {ls : List Text} {b : Bool} {line : Nat}

theorem parseLines_reads {entries out : Entries} (h : parseLines line b entries ls = .ok out) :
    ∃ rs, Reads b ls rs ∧ out = rs.foldl add entries := by
  induction ls generalizing line b entries with
  | nil => exact ⟨[], .nil, (Except.ok.inj h).symm⟩
  | cons l ls ih =>
      rw [parseLines] at h
      cases hread : readLine line b l with
      | error e =>
          rw [hread] at h
          cases h
      | ok r =>
          rw [hread] at h
          cases r with
          | nothing | table | entry _ _ =>
              obtain ⟨rs, hreads, hout⟩ := ih h
              exact ⟨_, .cons hread (by simpa [Reading.isTable] using hreads), hout⟩

theorem lookup_push (entries : Entries) (n target name : Text) :
    (push entries n target).lookup name =
      if n = name then some ((entries.lookup name).getD [] ++ [target])
      else entries.lookup name := by
  induction entries with
  | nil =>
      by_cases hn : n = name
      · simp [push, List.lookup_cons, hn]
      · simp [push, List.lookup_cons, hn, beq_false_of_ne (Ne.symm hn)]
  | cons e entries ih =>
      obtain ⟨m, ts⟩ := e
      rw [push]
      by_cases hm : m = n
      · subst hm
        by_cases hn : m = name
        · simp [List.lookup_cons, hn]
        · simp [List.lookup_cons, hn, beq_false_of_ne (Ne.symm hn)]
      · rw [if_neg hm]
        by_cases hname : m = name
        · subst hname
          simp [List.lookup_cons, Ne.symm hm]
        · simp [List.lookup_cons, beq_false_of_ne (Ne.symm hname), ih]

theorem lookup_foldl (rs : List Reading) (entries : Entries) (name : Text) :
    (rs.foldl add entries).lookup name =
      if targets (pairs rs) name = [] then entries.lookup name
      else some ((entries.lookup name).getD [] ++ targets (pairs rs) name) := by
  induction rs generalizing entries with
  | nil => simp [pairs, targets]
  | cons r rs ih =>
      rw [List.foldl_cons, ih]
      cases r with
      | nothing => rfl
      | table => rfl
      | entry n target =>
          simp only [add, lookup_push]
          by_cases hn : n = name
          · have htargets : targets (pairs (.entry n target :: rs)) name =
                target :: targets (pairs rs) name := by
              simp [pairs, targets, Reading.pair, hn]
            rw [htargets, if_pos hn]
            split <;> simp_all
          · have htargets : targets (pairs (.entry n target :: rs)) name =
                targets (pairs rs) name := by
              simp [pairs, targets, Reading.pair, hn]
            rw [htargets, if_neg hn]

theorem count_targets (ps : List (Text × Text)) (name target : Text) :
    (targets ps name).count target = ps.count (name, target) := by
  induction ps with
  | nil => rfl
  | cons p ps ih =>
      obtain ⟨n, t⟩ := p
      rw [List.count_cons, ← ih]
      by_cases hn : n = name
      · simp [targets, hn, List.count_cons]
      · simp [targets, hn]

theorem perm_of_targets {ps qs : List (Text × Text)}
    (h : ∀ name, targets ps name = targets qs name) : ps.Perm qs := by
  rw [List.perm_iff_count]
  rintro ⟨name, target⟩
  rw [← count_targets, ← count_targets, h name]

theorem unquoteKey_subset {key name : Text} (h : unquoteKey key line = .ok name) :
    ∀ c ∈ name, c ∈ key := by
  cases key with
  | nil => cases h
  | cons c quoted =>
      rw [unquoteKey] at h
      split at h
      case isTrue =>
          cases hstrip : stripSuffix '"' quoted with
          | none =>
              rw [hstrip] at h
              cases h
          | some t =>
              rw [hstrip] at h
              rw [← Except.ok.inj h, stripSuffix_inv hstrip]
              exact fun d hd => List.mem_cons_of_mem _ (List.mem_append_left _ hd)
      case isFalse =>
          rw [← Except.ok.inj h]
          exact fun d hd => hd

theorem unquoteValue_not_mem {value target : Text}
    (h : unquoteValue value line = .ok target) : '"' ∉ target := by
  rw [unquoteValue.eq_def] at h
  split at h
  · cases hsplit : splitOnce '"' _ with
    | none =>
        rw [hsplit] at h
        cases h
    | some p =>
        obtain ⟨t, tail⟩ := p
        rw [hsplit] at h
        simp only at h
        split at h
        · cases h
        · rw [← Except.ok.inj h]
          exact (splitOnce_inv hsplit).1
  · cases h

variable {l : Text} {r : Reading}

theorem readLine_inv (h : readLine line b l = .ok r) :
    (opens l = true ↔ r = .table) ∧
      ∀ name target, r = .entry name target → b = true ∧ '=' ∉ name ∧ '"' ∉ target := by
  rw [readLine] at h
  cases htrim : trim l with
  | nil =>
      rw [htrim] at h
      obtain rfl := Except.ok.inj h
      simp [opens, htrim]
  | cons c header =>
      rw [htrim] at h
      simp only at h
      by_cases hcomment : c = '#'
      · rw [if_pos hcomment] at h
        obtain rfl := Except.ok.inj h
        simp [opens, htrim, hcomment]
      rw [if_neg hcomment] at h
      by_cases htable : c = '['
      · rw [if_pos htable] at h
        have hr : r = .table := by
          cases hstrip : stripSuffix ']' header with
          | none =>
              rw [hstrip] at h
              cases h
          | some name =>
              rw [hstrip] at h
              simp only at h
              split at h
              · cases h
              · exact (Except.ok.inj h).symm
        simp [opens, htrim, htable, hr]
      rw [if_neg htable] at h
      cases hsplit : splitOnce '=' (c :: header) with
      | none =>
          rw [hsplit] at h
          cases h
      | some p =>
          obtain ⟨key, value⟩ := p
          rw [hsplit] at h
          simp only at h
          cases b with
          | false =>
              rw [if_pos rfl] at h
              cases h
          | true =>
              rw [if_neg (by simp)] at h
              cases hname : unquoteKey (trim key) line with
              | error e =>
                  rw [hname] at h
                  cases h
              | ok name =>
                  cases htarget : unquoteValue (trim value) line with
                  | error e =>
                      rw [hname, htarget] at h
                      cases h
                  | ok target =>
                      rw [hname, htarget] at h
                      obtain rfl := Except.ok.inj h
                      refine ⟨by simp [opens, htrim, htable], ?_⟩
                      intro n t hr
                      obtain ⟨rfl, rfl⟩ := Reading.entry.inj hr
                      refine ⟨rfl, fun hmem => ?_, unquoteValue_not_mem htarget⟩
                      exact (splitOnce_inv hsplit).1
                        (mem_of_mem_trim (unquoteKey_subset hname _ hmem))

variable {rs : List Reading}

theorem Reads.readLine (h : Reads b ls rs) :
    (∀ l ∈ ls, ∃ line b r, Packages.readLine line b l = .ok r) ∧
      ∀ r ∈ rs, ∃ line b l, Packages.readLine line b l = .ok r := by
  induction h with
  | nil => exact ⟨fun _ h => absurd h List.not_mem_nil, fun _ h => absurd h List.not_mem_nil⟩
  | cons h _ ih =>
      refine ⟨fun l hl => ?_, fun r hr => ?_⟩
      · rcases List.mem_cons.mp hl with rfl | hl
        · exact ⟨_, _, _, h⟩
        · exact ih.1 l hl
      · rcases List.mem_cons.mp hr with rfl | hr
        · exact ⟨_, _, _, h⟩
        · exact ih.2 r hr

theorem Reads.countP_opens (h : Reads b ls rs) : ls.countP opens = rs.countP Reading.isTable := by
  induction h with
  | nil => rfl
  | cons h _ ih =>
      rw [List.countP_cons, List.countP_cons, ih]
      congr 2
      have := (readLine_inv h).1
      cases ‹Reading› <;> simpa [Reading.isTable] using this

def Clean : Item → Prop
  | .table path => path = [PACKAGES]
  | .pair path value => ∃ name, path = [name] ∧ '=' ∉ name ∧ '"' ∉ value

def isTable : Item → Bool
  | .table _ => true
  | .pair _ _ => false

def itemWeight : Item → Nat
  | .table _ => 0
  | .pair path value => path.flatten.length + value.length

def Reading.weight : Reading → Nat
  | .entry name target => name.length + target.length
  | _ => 0

inductive Lined : List Text → List Item → Prop
  | nil : Lined [] []
  | cons {l : Text} {item : Option Item} {ls : List Text} {items : List Item}
      (h : Expression l item) (hrest : Lined ls items) : Lined (l :: ls) (item.toList ++ items)

theorem printable_or {t : Text} {item : Option Item} (h : Expression t item)
    (hclean : ∀ i ∈ item, Clean i) :
    (∀ c ∈ t, isPrintable c = true) ∨
      ∃ front more, front ≠ [] ∧ (∀ c ∈ front, isPrintable c = true) ∧ t = front ++ more ∧
        ∀ more' line b r, readLine line b (front ++ more') ≠ .ok r := by
  cases h with
  | nothing hbefore hcomment =>
      refine Or.inl fun c hc => ?_
      rcases List.mem_append.mp hc with hc | hc
      · exact hbefore.printable c hc
      · exact hcomment.printable c hc
  | table hbefore hleft hkey hright hafter hcomment =>
      obtain rfl : _ = [PACKAGES] := hclean _ rfl
      refine Or.inl ?_
      simp only [List.forall_mem_append, List.forall_mem_cons]
      exact ⟨hbefore.printable, by simp [isPrintable], hleft.printable, hkey.single.printable,
        hright.printable, by simp [isPrintable], hafter.printable, hcomment.printable⟩
  | @pair before key left right string after comment value path hbefore hkey hleft hright
      hstring hafter hcomment =>
      obtain ⟨name, rfl, hequals, -⟩ := hclean _ rfl
      have hsimple := hkey.single
      rcases hstring.printable_or with hprint | ⟨more, hmore⟩
      · refine Or.inl ?_
        simp only [List.forall_mem_append, List.forall_mem_cons]
        exact ⟨hbefore.printable, hsimple.printable, hleft.printable, by simp [isPrintable],
          hright.printable, hprint, hafter.printable, hcomment.printable⟩
      · obtain ⟨quotes, hquotes, hprint, hstarts⟩ : ∃ quotes : Text, string = quotes ++ more ∧
            (∀ c ∈ quotes, isPrintable c = true) ∧
            (quotes = ['"', '"', '"'] ∨ quotes = ['\'', '\'', '\'']) := by
          rcases hmore with rfl | rfl
          · exact ⟨['"', '"', '"'], rfl, by simp [isPrintable], Or.inl rfl⟩
          · exact ⟨['\'', '\'', '\''], rfl, by simp [isPrintable], Or.inr rfl⟩
        refine Or.inr ⟨before ++ (key ++ (left ++ '=' :: (right ++ quotes))),
          more ++ (after ++ comment), by simp, ?_, by simp [hquotes], ?_⟩
        · simp only [List.forall_mem_append, List.forall_mem_cons]
          exact ⟨hbefore.printable, hsimple.printable, hleft.printable, by simp [isPrintable],
            hright.printable, hprint⟩
        · intro more' line b r
          have hshape : before ++ (key ++ (left ++ '=' :: (right ++ quotes))) ++ more' =
              before ++ (key ++ (left ++ '=' :: (right ++ (quotes ++ more')))) := by simp
          rw [hshape]
          refine readLine_ne_lines hbefore hsimple hequals hleft hright ⟨more', ?_⟩
          rcases hstarts with rfl | rfl
          · exact Or.inl rfl
          · exact Or.inr rfl

variable {text : Text}

theorem lined_of_document {items : List Item} (h : Document text items)
    (hclean : ∀ i ∈ items, Clean i)
    (hread : ∀ l ∈ lines text, ∃ line b r, readLine line b l = .ok r) :
    Lined (lines text) items := by
  induction h with
  | @last t item h =>
      rcases printable_or h (by simpa using hclean) with
        hprint | ⟨front, more, hne, hprint, rfl, hrefused⟩
      · rw [lines_last fun hmem => (isPrintable_ne (hprint _ hmem)).1 rfl]
        split
        case isTrue ht =>
            subst ht
            obtain rfl := h.of_nil
            exact .nil
        case isFalse =>
            have := Lined.cons h .nil
            rwa [List.append_nil] at this
      · obtain ⟨more', others, hlines⟩ := lines_head more hne hprint
        obtain ⟨line, b, r, hr⟩ := hread _ (by rw [hlines]; exact List.mem_cons_self)
        exact absurd hr (hrefused _ _ _ _)
  | @line t newline rest item items h hnewline _ ih =>
      rcases printable_or h fun i hi => hclean i (List.mem_append_left _ (by simpa using hi)) with
        hprint | ⟨front, more, hne, hprint, rfl, hrefused⟩
      · rw [lines_newline rest hprint hnewline] at hread ⊢
        exact .cons h (ih (fun i hi => hclean i (List.mem_append_right _ hi))
          fun l hl => hread l (List.mem_cons_of_mem _ hl))
      · rw [List.append_assoc] at hread
        obtain ⟨more', others, hlines⟩ := lines_head (more ++ (newline ++ rest)) hne hprint
        obtain ⟨line, b, r, hr⟩ := hread _ (by rw [hlines]; exact List.mem_cons_self)
        exact absurd hr (hrefused _ _ _ _)

theorem document_of_lined {items : List Item} (h : Lined (lines text) items) :
    Document text items := by
  induction hn : text.length using Nat.strong_induction_on generalizing text items with
  | _ n ih =>
      rcases text_cases text with hlast | ⟨l, rest, rfl, hl⟩
      · rw [lines_last hlast] at h
        split at h
        case isTrue ht =>
            subst ht
            cases h
            have hnothing : Expression ([] ++ []) none :=
              .nothing (fun _ hc => absurd hc List.not_mem_nil) .none
            exact .last hnothing
        case isFalse =>
            cases h with
            | cons hexpression hrest =>
                cases hrest
                rw [List.append_nil]
                exact .last hexpression
      · rw [lines_append rest hl] at h
        cases h with
        | cons hexpression hrest =>
            have hdocument := ih rest.length (by rw [← hn]; simp; omega) hrest rfl
            rcases stripReturn_cases l with hstrip | hstrip
            · rw [← hstrip] at hexpression
              exact .line hexpression (Or.inl rfl) hdocument
            · have := Document.line hexpression (Or.inr rfl) hdocument
              rw [hstrip]
              simpa using this

theorem line_weight {item : Option Item}
    (h : Expression l item) (hclean : ∀ i ∈ item, Clean i) (hread : readLine line b l = .ok r) :
    (item.toList.map itemWeight).sum ≤ r.weight ∧
      (r.weight ≤ (item.toList.map itemWeight).sum → PlainLine l) ∧
      item.toList.countP isTable = [r].countP Reading.isTable := by
  cases h with
  | nothing hbefore hcomment =>
      rw [readLine_nothing hbefore hcomment] at hread
      obtain rfl := Except.ok.inj hread
      exact ⟨Nat.le_refl _, fun _ => .nothing hbefore hcomment, rfl⟩
  | @table before left key right after comment path hbefore hleft hkey hright hafter hcomment =>
      obtain rfl : path = [PACKAGES] := hclean _ rfl
      obtain ⟨rfl, name, hends, hname⟩ := readLine_table hbefore hread
      refine ⟨Nat.le_refl _, fun _ => ?_, rfl⟩
      have hshape : left ++ (key ++ (right ++ ']' :: (after ++ comment))) =
          (left ++ (key ++ right)) ++ ']' :: (after ++ comment) := by simp
      rw [hshape, trimEnd_append (by simp [isWhitespace])] at hends
      have hkeyed := keyed_of_simple hkey.single (by simp [PACKAGES])
      cases hcomment with
      | none =>
          rw [List.append_nil, trimEnd_blank hafter] at hends
          have hsame : left ++ (key ++ right) = name := List.append_cancel_right hends
          rw [← hsame, trim_blank_append hleft, hkeyed.toSolid.trim_append hright] at hname
          rw [hname, List.append_nil]
          exact .table hbefore hleft hright hafter
      | @some t _ =>
          -- a comment puts the bracket inside the name
          rw [trimEnd_append (by simp [isWhitespace])] at hends
          have hmem : ']' ∈ name := by
            obtain hnil | ⟨front, c, hc⟩ := List.eq_nil_or_concat ('#' :: trimEnd t)
            · cases hnil
            · rw [hc, List.concat_eq_append] at hends
              have hsplit : (left ++ (key ++ right) ++ ']' :: (after ++ front)) ++ [c] =
                  name ++ [']'] := by simpa using hends
              rw [← (List.append_inj' hsplit rfl).1]
              simp
          have := mem_trim (by simp [isWhitespace]) hmem
          rw [hname] at this
          simp [PACKAGES] at this
  | @pair before key left right string after comment value path hbefore hkey hleft hright
      hstring hafter hcomment =>
      obtain ⟨name, rfl, hequals, hquote⟩ := hclean _ rfl
      have hsimple := hkey.single
      obtain ⟨-, n, target, hn, htarget, rfl⟩ :=
        readLine_entry_ok hbefore (keyed_of_simple hsimple hequals) hleft hread
      obtain ⟨n', hn', hlength, hplain⟩ := unquoteKey_simple line hsimple hequals
      obtain rfl : n' = n := Except.ok.inj (hn'.symm.trans hn)
      obtain ⟨ps, hps, rfl, rfl, rfl⟩ :=
        unquoteValue_string hstring hquote hright hafter hcomment htarget
      have hvalues := length_values_le ps
      refine ⟨?_, fun hweight => ?_, rfl⟩
      · simp [itemWeight, Reading.weight]
        omega
      · simp [itemWeight, Reading.weight] at hweight
        have hpieces : ∀ p ∈ ps, ∃ c, p = .plain c := plain_of_length (by omega)
        refine .entry hbefore (hplain (by omega)) hleft hright ?_ hafter hcomment
        intro c hc
        obtain ⟨p, hp, hmem⟩ := List.mem_flatMap.mp hc
        obtain ⟨d, rfl⟩ := hpieces p hp
        obtain rfl := List.mem_singleton.mp hmem
        exact hps _ hp

theorem lined_weight {items : List Item}
    (h : Lined ls items) (hreads : Reads b ls rs) (hclean : ∀ i ∈ items, Clean i) :
    (items.map itemWeight).sum ≤ (rs.map Reading.weight).sum ∧
      ((rs.map Reading.weight).sum ≤ (items.map itemWeight).sum → ∀ l ∈ ls, PlainLine l) ∧
      items.countP isTable = rs.countP Reading.isTable := by
  induction h generalizing b rs with
  | nil =>
      cases hreads
      exact ⟨Nat.le_refl _, fun _ _ hl => absurd hl List.not_mem_nil, rfl⟩
  | cons h _ ih =>
      cases hreads with
      | cons hread hreads =>
          obtain ⟨hline, hplain, htable⟩ := line_weight h
            (fun i hi => hclean i (List.mem_append_left _ (by simpa using hi))) hread
          obtain ⟨hlines, hplains, htables⟩ := ih hreads
            (fun i hi => hclean i (List.mem_append_right _ hi))
          rw [List.map_append, List.sum_append, List.map_cons, List.sum_cons]
          refine ⟨Nat.add_le_add hline hlines, fun hweight l hl => ?_, ?_⟩
          · rcases List.mem_cons.mp hl with rfl | hl
            · exact hplain (by omega)
            · exact hplains (by omega) l hl
          · rw [List.countP_append, htable, htables, ← List.countP_append]
            rfl

theorem plain_expression (h : PlainLine l)
    (hread : readLine line b l = .ok r) : Expression l r.item := by
  cases h with
  | nothing hbefore hcomment =>
      rw [readLine_nothing hbefore hcomment] at hread
      obtain rfl := Except.ok.inj hread
      exact .nothing hbefore hcomment
  | table hbefore hleft hright hafter =>
      rw [readLine_table_of hbefore hleft hright hafter] at hread
      obtain rfl := Except.ok.inj hread
      have hkey : Key PACKAGES [PACKAGES] :=
        .simple (.bare (by simp [PACKAGES]) (by simp [PACKAGES, isBare]))
      have := Expression.table hbefore hleft hkey hright hafter .none
      rwa [List.append_nil] at this
  | @entry before key name left right target after comment hbefore hkey hleft hright htarget
      hafter hcomment =>
      obtain ⟨hsimple, hequals, hunquote⟩ := hkey.simple
      obtain ⟨-, n, t, hn, ht, rfl⟩ :=
        readLine_entry_ok hbefore (keyed_of_simple hsimple hequals) hleft hread
      obtain rfl : name = n := Except.ok.inj ((hunquote line).symm.trans hn)
      have hpieces : ∀ p ∈ target.map Piece.plain, p.IsBasic := by
        intro p hp
        obtain ⟨c, hc, rfl⟩ := List.mem_map.mp hp
        exact htarget c hc
      have hstring := StringText.basic hpieces
      rw [texts_plain, values_plain] at hstring
      have hquote : '"' ∉ target := fun hmem => (htarget _ hmem).2.1 rfl
      obtain ⟨ps, hps, htext, hvalue, rfl⟩ :=
        unquoteValue_string hstring hquote hright hafter hcomment ht
      have : target = texts ps := by simpa using htext
      rw [← this]
      exact .pair hbefore (.simple hsimple) hleft hright hstring hafter hcomment

theorem lined_of_plain (h : Reads b ls rs)
    (hplain : ∀ l ∈ ls, PlainLine l) : Lined ls (rs.filterMap Reading.item) := by
  induction h with
  | nil => exact .nil
  | @cons b line l r ls rs h _ ih =>
      have hline := plain_expression (hplain l List.mem_cons_self) h
      have hlines := ih fun l hl => hplain l (List.mem_cons_of_mem _ hl)
      have := Lined.cons hline hlines
      rw [List.filterMap_cons]
      cases hr : r.item with
      | none | some _ =>
          rw [hr] at this
          exact this

theorem items_of_no_table (h : rs.countP Reading.isTable = 0) :
    rs.filterMap Reading.item = (pairs rs).map fun p => Item.pair [p.1] p.2 := by
  induction rs with
  | nil => rfl
  | cons r rs ih =>
      rw [List.countP_cons] at h
      have ih := ih (by omega)
      cases r with
      | nothing => exact ih
      | table => simp [Reading.isTable] at h
      | entry name target =>
          rw [pairs_entry, List.map_cons, ← ih]
          rfl

theorem Reads.items (h : Reads false ls rs) (hcount : rs.countP Reading.isTable ≤ 1) :
    rs.filterMap Reading.item = [] ∧ pairs rs = [] ∨ rs.filterMap Reading.item =
        .table [PACKAGES] :: (pairs rs).map (fun p => Item.pair [p.1] p.2) := by
  generalize hb : false = b at h
  induction h with
  | nil => exact Or.inl ⟨rfl, rfl⟩
  | @cons b line l r ls rs h _ ih =>
      subst hb
      rw [List.countP_cons] at hcount
      cases r with
      | nothing => exact ih (by simpa [Reading.isTable] using hcount) rfl
      | table =>
          have hnone : rs.countP Reading.isTable = 0 := by
            simpa [Reading.isTable] using hcount
          refine Or.inr ?_
          rw [pairs_table, ← items_of_no_table hnone]
          rfl
      | entry name target =>
          have := ((readLine_inv h).2 name target rfl).1
          cases this

theorem weight_pairs (rs : List Reading) :
    ((pairs rs).map fun p => p.1.length + p.2.length).sum = (rs.map Reading.weight).sum := by
  induction rs with
  | nil => rfl
  | cons r rs ih =>
      rw [List.map_cons, List.sum_cons, ← ih]
      cases r with
      | nothing => exact (Nat.zero_add _).symm
      | table => exact (Nat.zero_add _).symm
      | entry name target => rw [pairs_entry, List.map_cons, List.sum_cons, Reading.weight]

theorem plain_of_holds {entries : Entries} (h : parse text = .ok entries)
    (hholds : Holds text entries) : Plain text := by
  obtain ⟨rs, hreads, rfl⟩ := parseLines_reads h
  obtain ⟨items, ps, hdocument, hitems, hlookup⟩ := hholds
  have htargets : ∀ name, targets ps name = targets (pairs rs) name := by
    intro name
    have := (lookup_foldl rs [] name).symm.trans (hlookup name)
    simp only [List.lookup_nil, Option.getD_none, List.nil_append] at this
    by_cases hps : targets ps name = [] <;> by_cases hrs : targets (pairs rs) name = []
    · rw [hps, hrs]
    · simp [hps, hrs] at this
    · simp [hps, hrs] at this
    · rw [if_neg hps, if_neg hrs] at this
      exact (Option.some.inj this).symm
  have hperm := perm_of_targets htargets
  have hread : ∀ p ∈ ps, '=' ∉ p.1 ∧ '"' ∉ p.2 := by
    intro p hp
    obtain ⟨r, hr, hpair⟩ := List.mem_filterMap.mp (hperm.mem_iff.mp hp)
    obtain ⟨line, b, l, hl⟩ := hreads.readLine.2 r hr
    cases r with
    | nothing => cases hpair
    | table => cases hpair
    | entry name target =>
        obtain rfl := Option.some.inj hpair
        exact ((readLine_inv hl).2 name target rfl).2
  have hclean : ∀ i ∈ items, Clean i := by
    rcases hitems with ⟨rfl, -⟩ | rfl
    · exact fun i hi => absurd hi List.not_mem_nil
    · intro i hi
      rcases List.mem_cons.mp hi with rfl | hi
      · rfl
      · obtain ⟨p, hp, rfl⟩ := List.mem_map.mp hi
        exact ⟨p.1, rfl, hread p hp⟩
  obtain ⟨-, hplain, htables⟩ :=
    lined_weight (lined_of_document hdocument hclean hreads.readLine.1) hreads hclean
  have hweight : (items.map itemWeight).sum =
      (ps.map fun p => p.1.length + p.2.length).sum := by
    rcases hitems with ⟨rfl, rfl⟩ | rfl
    · rfl
    · simp [itemWeight, Function.comp_def]
  refine ⟨hplain ?_, ?_⟩
  · rw [hweight, (hperm.map _).sum_eq, weight_pairs]
  · rw [hreads.countP_opens, ← htables]
    rcases hitems with ⟨rfl, rfl⟩ | rfl
    · simp
    · simp [isTable, List.countP_cons, List.countP_eq_zero]

/-- What is read of a text is what TOML says it holds exactly when every line is plain and one
table at most is opened. -/
theorem parse_holds_iff {text : Text} {entries : Entries} (h : parse text = .ok entries) :
    Holds text entries ↔ Plain text := by
  constructor
  · exact plain_of_holds h
  · rintro ⟨hplain, hcount⟩
    obtain ⟨rs, hreads, rfl⟩ := parseLines_reads h
    rw [hreads.countP_opens] at hcount
    exact ⟨rs.filterMap Reading.item, pairs rs, document_of_lined (lined_of_plain hreads hplain),
      hreads.items hcount, fun name => by simp [lookup_foldl]⟩

/-- `a="b"` in the table. -/
def quoted : Text := '[' :: PACKAGES ++ [']', '\n', 'a', '=', '"', 'b', '"']

theorem parse_holds_quoted : parse quoted = .ok [(['a'], [['b']])] ∧
    (Holds quoted [(['a'], [['b']])] ↔ Plain quoted) :=
  ⟨rfl, parse_holds_iff rfl⟩

theorem PlainLine.comment_of_mem (h : PlainLine l) (hmem : '\\' ∈ l) : '#' ∈ l := by
  have hblank : ∀ {b : Text}, IsBlank b → '\\' ∉ b := by
    intro b hb hslash
    rcases hb _ hslash with h | h <;> simp at h
  have hcomment : ∀ {t : Text}, Comment t → '\\' ∈ t → '#' ∈ t := by
    intro t ht hslash
    cases ht with
    | none => cases hslash
    | some => exact List.mem_cons_self
  cases h with
  | nothing hbefore ht =>
      rcases List.mem_append.mp hmem with hmem | hmem
      · exact absurd hmem (hblank hbefore)
      · exact List.mem_append_right _ (hcomment ht hmem)
  | table hbefore hleft hright hafter =>
      simp [hblank hbefore, hblank hleft, hblank hright, hblank hafter, PACKAGES] at hmem
  | @entry before key name left right target after comment hbefore hkey hleft hright htarget
      hafter ht =>
      have hkey : '\\' ∉ key := by
        intro hslash
        cases hkey with
        | bare _ h =>
            have := h _ hslash
            simp [isBare] at this
        | quoted h =>
            simp only [List.mem_cons, List.mem_append, List.not_mem_nil, or_false] at hslash
            rcases hslash with hslash | hslash | hslash
            · simp at hslash
            · exact (h _ hslash).2.2.1 rfl
            · simp at hslash
      have htarget : '\\' ∉ target := fun hslash => (htarget _ hslash).2.2 rfl
      have : '\\' ∈ comment := by
        simpa [hblank hbefore, hblank hleft, hblank hright, hblank hafter, hkey, htarget]
          using hmem
      simp [hcomment ht this]

/-- `a="\\"` in the table: TOML says one backslash, and two are read. -/
def escaped : Text := '[' :: PACKAGES ++ [']', '\n', 'a', '=', '"', '\\', '\\', '"']

theorem not_holds_escaped :
    ¬ ∀ text entries, parse text = .ok entries → Holds text entries := by
  intro h
  have hread : parse escaped = .ok [(['a'], [['\\', '\\']])] := rfl
  have hplain := (plain_of_holds hread (h _ _ hread)).1 ['a', '=', '"', '\\', '\\', '"']
    (by simp [lines, escaped, PACKAGES, splitLines, ended])
  have := hplain.comment_of_mem (by simp)
  simp at this

end Agreement

end Packages
end Resolve
end Zdeceptron
