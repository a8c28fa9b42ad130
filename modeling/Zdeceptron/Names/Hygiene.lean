import Zdeceptron.Names.Allocate

/-!
# What the identifiers of a module may shadow

Around what is named after the program stand names of the emission's own: the runtime's exports
it imports as they are, the globals its code mentions, and names that begin with a `$`.

* `hygienic_iff`: when that is so.
-/

namespace Zdeceptron
namespace Names

section Vocabulary

/-- The exports a module imports from each file of the runtime under their own names.  Those of
`request.js`, `rpc.js` and `store.js` have a `$` before them. -/
def runtimeImports : List (String × List String) :=
  [("signal.js", ["derived", "effect", "signal"]),
    ("dom.js", ["anchors", "bindAttr", "bindStyle", "bindText", "mount", "on", "safeUrl",
      "template", "variant"]),
    ("foreign.js", ["foreign"]),
    ("markup.js", ["bindMarkup", "markup"]),
    ("list.js", ["eachInto"]),
    ("branch.js", ["ifInto", "whenInto"]),
    ("adopt.js", ["adopt"]),
    ("clock.js", ["afterMs", "everyFrame", "everyMs", "steppingFrame", "steppingMs"]),
    ("keys.js", ["onKey"]),
    ("remembered.js", ["remembered"]),
    ("media.js", ["mediaMatch"]),
    ("viewport.js", ["scrollFraction"]),
    ("scene.js", ["scene"]),
    ("vector.js", ["templateSvg"])]

def entryPoints : List String := ["main", "container", "e", "handler"]

def globals : List String :=
  ["Array", "Boolean", "Date", "Error", "JSON", "Map", "Math", "NaN", "Number", "Object", "Set",
    "String", "Symbol", "WeakMap", "document", "encodeURIComponent", "parseInt",
    "queueMicrotask", "undefined"]

/-- The names of the emission that do not begin with a `$`. -/
def plainNames : List Text :=
  (runtimeImports.flatMap Prod.snd ++ entryPoints ++ globals).map String.toList

/-- A name the emission uses: one of the plain ones, or one that begins with a `$` and is not
that of a test. -/
def Mentionable (name : Text) : Prop :=
  name ∈ plainNames ∨ (name.head? = some '$' ∧ ∀ n, name ≠ testName n)

structure Module where
  mentions : List Text
  mentionable : ∀ name ∈ mentions, Mentionable name

theorem plainNames_dollar : ∀ name ∈ plainNames, '$' ∉ name := by
  decide +kernel

theorem plainNames_set : ∀ name ∈ plainNames, ¬ "set".toList <+: name := by
  decide +kernel

end Vocabulary

section Hygiene

variable (abc : Alphabet)

structure IsLegal (name : Text) : Prop where
  unreserved : name ∉ reserved
  formed : ∃ c rest, name = c :: rest ∧ (abc.isStart c = true ∨ c = '$') ∧
    ∀ d ∈ rest, abc.isContinue d = true ∨ d = '$'

/-- The identifiers of a program in a module: they differ, they are legal, and none of them is
a name the module uses for something else. -/
structure Hygienic (hir : Hir abc) (m : Module) : Prop where
  distinct : (Naming.new abc hir).identifiers.Nodup
  legal : ∀ name ∈ (Naming.new abc hir).identifiers, IsLegal abc name
  apart : ∀ name ∈ (Naming.new abc hir).identifiers, name ∉ m.mentions

/-- Whatever of the program has the name of something the module mentions has a name that is
set aside. -/
def Avoids (hir : Hir abc) (m : Module) : Prop :=
  ∀ name ∈ hir.sources abc, name ∈ m.mentions → name ∈ initial

variable {abc} {hir : Hir abc} {m : Module}

theorem isLegal_testName (n : Nat) : IsLegal abc (testName n) := by
  have htest : testName n = '$' :: ("test".toList ++ digits n) := rfl
  refine ⟨fun h => ?_, '$', _, htest, .inr rfl, fun d hd => .inl (abc.alphanumeric d ?_)⟩
  · exact head_initial _ (List.mem_append_left _ h) rfl
  · have hletters : "test".toList.all Char.isAlphanum = true := by decide
    rcases List.mem_append.mp hd with hd | hd
    · exact List.all_eq_true.mp hletters d hd
    · simp [Char.isAlphanum, isDigit_of_mem_digits hd]

theorem isLegal_identifier {name : Text} (h : name ∈ (Naming.new abc hir).identifiers) :
    IsLegal abc name := by
  have hsound := sound_new hir
  rcases hsound.formed name h with ⟨c, rest, rfl, hc, hrest⟩ | ⟨n, -, rfl⟩
  · refine ⟨fun hreserved => ?_, c, rest, rfl, .inl hc, hrest⟩
    exact hsound.apart _ h (List.mem_append_left _ hreserved)
  · exact isLegal_testName n

theorem mem_sources_of_mentionable {name : Text}
    (h : name ∈ (Naming.new abc hir).identifiers) (hmention : Mentionable name) :
    name ∈ hir.sources abc := by
  have hsound := sound_new hir
  rcases hmention with hplain | ⟨hdollar, htest⟩
  · rcases hsound.whence name h with hsource | hmarked | hsetter
    · exact hsource
    · exact absurd hmarked (plainNames_dollar name hplain)
    · exact absurd hsetter (plainNames_set name hplain)
  · rcases hsound.formed name h with hmarked | ⟨n, -, heq⟩
    · exact absurd hdollar hmarked.head_ne
    · exact absurd heq (htest n)

/-- The identifiers of a program are always legal and always differ, and they shadow nothing of
a module exactly when every name they share with it is set aside. -/
theorem hygienic_iff (abc : Alphabet) (hir : Hir abc) (m : Module) :
    Hygienic abc hir m ↔ Avoids abc hir m := by
  have hsound := sound_new hir
  constructor
  · intro h name hsource hmention
    rcases (hsound.known name).mp (hsound.covered name hsource) with hinitial | hidentifier
    · exact hinitial
    · exact absurd hmention (h.apart name hidentifier)
  · intro h
    refine ⟨hsound.nodup, fun name => isLegal_identifier, fun name hidentifier hmention => ?_⟩
    have hsource := mem_sources_of_mentionable hidentifier (m.mentionable name hmention)
    exact hsound.apart name hidentifier (h name hsource hmention)

end Hygiene

section Shadowed

theorem asciiIdentifiers_letters (c : Char) (h : c.isAlpha = true) :
    Lexer.asciiIdentifiers.isStart c = true := h

theorem asciiIdentifiers_alphanumeric (c : Char) (h : c.isAlphanum = true) :
    Lexer.asciiIdentifiers.isContinue c = true := by
  show (c.isAlphanum || _) = true
  rw [h]
  rfl

theorem asciiIdentifiers_noDollar : Lexer.asciiIdentifiers.isContinue '$' = false := by decide

theorem asciiIdentifiers_upper (c : Char) (hc : Lexer.asciiIdentifiers.isStart c = true) :
    ∀ d ∈ [c.toUpper], Lexer.asciiIdentifiers.isContinue d = true := by
  intro d hd
  rw [List.mem_singleton.mp hd]
  have hsmall : ∀ n < 128, (Char.ofNat n).isAlpha = true →
      Lexer.asciiIdentifiers.isContinue (Char.ofNat n).toUpper = true := by decide
  have hlt : c.toNat < 128 := by
    have hrange := Library.isAlpha_iff.mp (show c.isAlpha = true from hc)
    omega
  rw [← Char.ofNat_toNat c] at hc ⊢
  exact hsmall c.toNat hlt hc

def ascii : Alphabet where
  toIdentifiers := Lexer.asciiIdentifiers
  upper c := [c.toUpper]
  letters := asciiIdentifiers_letters
  alphanumeric := asciiIdentifiers_alphanumeric
  noDollar := asciiIdentifiers_noDollar
  upperContinues := asciiIdentifiers_upper

/-- `state everyMs is client Whole starting 1`. -/
def everyMs : Hir ascii where
  defs := [⟨"everyMs".toList, .signal false, false, fun _ =>
    ⟨'e', "veryMs".toList, rfl, by decide, fun d hd => List.all_eq_true.mp
      (by decide : "veryMs".toList.all ascii.isContinue = true) d hd⟩⟩]
  locals := []

def clock : Module where
  mentions := ["signal".toList, "everyMs".toList]
  mentionable := by
    intro name hname
    refine .inl ?_
    revert name
    decide +kernel

/-- The signal takes the name the module imports from `clock.js`. -/
theorem everyMs_shadowed : ¬ ∀ (abc : Alphabet) (hir : Hir abc) (m : Module), Hygienic abc hir m :=
  fun h => (h ascii everyMs clock).apart "everyMs".toList (by decide) (by decide)

end Shadowed

end Names
end Zdeceptron
