import Zdeceptron.Bodies.Functions

/-!
# What a body touches

Which expressions a statement holds, and which operators, locals and callees an expression
names, wherever they stand in it.
-/

namespace Zdeceptron
namespace Bodies

section Statements

variable {Expr Effect : Type}

def Pipeline.exprs : Pipeline Expr → List Expr
  | .source e => [e]
  | .keep _ cond => [cond]
  | .sort _ key => [key]
  | .mapEach _ mapped => [mapped]
  | .fold _ _ starting step => [starting, step]
  | .takeFirst count => [count]

variable (reads : Expr → Bool) (does : Effect → Bool)

mutual

def stmtTouches : Stmt Expr Effect → Bool
  | .pipeline clause => clause.exprs.any reads
  | .mutation mutation => does mutation
  | .bind bindings => bindings.any (fun binding => reads binding.2)
  | .give e => reads e
  | .when scrutinee as => reads scrutinee || armsTouch as
  | .each _ iter body => reads iter || blockTouches body
  | .ifThen cond then_ none => reads cond || blockTouches then_
  | .ifThen cond then_ (some otherwise) =>
      reads cond || blockTouches then_ || blockTouches otherwise
  | .perform call => does call

def blockTouches : Block Expr Effect → Bool
  | [] => false
  | s :: stmts => stmtTouches s || blockTouches stmts

def armsTouch : List (Arm Expr Effect) → Bool
  | [] => false
  | .mk _ _ body :: rest => armBodyTouches body || armsTouch rest

def armBodyTouches : ArmBody Expr Effect → Bool
  | .show_ e => reads e
  | .block stmts => blockTouches stmts

end

variable {reads does} {reads' : Expr → Bool} {does' : Effect → Bool}

theorem any_or {α : Type} (p q : α → Bool) (xs : List α) :
    xs.any (fun x => p x || q x) = (xs.any p || xs.any q) := by
  induction xs with
  | nil => rfl
  | cons x xs ih =>
      rw [List.any_cons, List.any_cons, List.any_cons, ih]
      cases p x <;> cases q x <;> simp

mutual

theorem stmtTouches_or (s : Stmt Expr Effect) :
    stmtTouches (fun e => reads e || reads' e) (fun e => does e || does' e) s =
      (stmtTouches reads does s || stmtTouches reads' does' s) := by
  match s with
  | .pipeline clause => exact any_or reads reads' clause.exprs
  | .mutation mutation => rfl
  | .bind bindings =>
      exact any_or (fun binding => reads binding.2) (fun binding => reads' binding.2) bindings
  | .give e => rfl
  | .when scrutinee as =>
      rw [stmtTouches, stmtTouches, stmtTouches, armsTouch_or as]
      ac_rfl
  | .each _ iter body =>
      rw [stmtTouches, stmtTouches, stmtTouches, blockTouches_or body]
      ac_rfl
  | .ifThen cond then_ none =>
      rw [stmtTouches, stmtTouches, stmtTouches, blockTouches_or then_]
      ac_rfl
  | .ifThen cond then_ (some otherwise) =>
      rw [stmtTouches, stmtTouches, stmtTouches, blockTouches_or then_,
        blockTouches_or otherwise]
      ac_rfl
  | .perform call => rfl

theorem blockTouches_or (stmts : Block Expr Effect) :
    blockTouches (fun e => reads e || reads' e) (fun e => does e || does' e) stmts =
      (blockTouches reads does stmts || blockTouches reads' does' stmts) := by
  match stmts with
  | [] => rfl
  | s :: stmts =>
      rw [blockTouches, blockTouches, blockTouches, stmtTouches_or s, blockTouches_or stmts]
      ac_rfl

theorem armsTouch_or (as : List (Arm Expr Effect)) :
    armsTouch (fun e => reads e || reads' e) (fun e => does e || does' e) as =
      (armsTouch reads does as || armsTouch reads' does' as) := by
  match as with
  | [] => rfl
  | .mk _ _ body :: rest =>
      rw [armsTouch, armsTouch, armsTouch, armBodyTouches_or body, armsTouch_or rest]
      ac_rfl

theorem armBodyTouches_or (body : ArmBody Expr Effect) :
    armBodyTouches (fun e => reads e || reads' e) (fun e => does e || does' e) body =
      (armBodyTouches reads does body || armBodyTouches reads' does' body) := by
  match body with
  | .show_ e => rfl
  | .block stmts => exact blockTouches_or stmts

end

theorem blockTouches_congr (hreads : ∀ e, reads e = reads' e) (hdoes : ∀ e, does e = does' e)
    (stmts : Block Expr Effect) :
    blockTouches reads does stmts = blockTouches reads' does' stmts := by
  obtain rfl : reads = reads' := funext hreads
  obtain rfl : does = does' := funext hdoes
  rfl

mutual

theorem stmtTouches_nothing (s : Stmt Expr Effect) :
    stmtTouches (fun _ => false) (fun _ => false) s = false := by
  match s with
  | .pipeline clause => simp [stmtTouches]
  | .mutation _ => rfl
  | .bind bindings => simp [stmtTouches]
  | .give _ => rfl
  | .when _ as => rw [stmtTouches, armsTouch_nothing as, Bool.or_self]
  | .each _ _ body => rw [stmtTouches, blockTouches_nothing body, Bool.or_self]
  | .ifThen _ then_ none => rw [stmtTouches, blockTouches_nothing then_, Bool.or_self]
  | .ifThen _ then_ (some otherwise) =>
      rw [stmtTouches, blockTouches_nothing then_, blockTouches_nothing otherwise,
        Bool.or_self, Bool.or_self]
  | .perform _ => rfl

theorem blockTouches_nothing (stmts : Block Expr Effect) :
    blockTouches (fun _ => false) (fun _ => false) stmts = false := by
  match stmts with
  | [] => rfl
  | s :: stmts =>
      rw [blockTouches, stmtTouches_nothing s, blockTouches_nothing stmts, Bool.or_self]

theorem armsTouch_nothing (as : List (Arm Expr Effect)) :
    armsTouch (fun _ => false) (fun _ => false) as = false := by
  match as with
  | [] => rfl
  | .mk _ _ body :: rest =>
      rw [armsTouch, armBodyTouches_nothing body, armsTouch_nothing rest, Bool.or_self]

theorem armBodyTouches_nothing (body : ArmBody Expr Effect) :
    armBodyTouches (fun _ => false) (fun _ => false) body = false := by
  match body with
  | .show_ _ => rfl
  | .block stmts => exact blockTouches_nothing stmts

end

end Statements

section Expressions

variable {Op Verb : Type}

structure Marks (Op : Type) where
  operator : Op → Bool
  local_ : Nat → Bool
  callee : Nat → Bool

def Marks.or (t t' : Marks Op) : Marks Op where
  operator op := t.operator op || t'.operator op
  local_ id := t.local_ id || t'.local_ id
  callee id := t.callee id || t'.callee id

variable (t : Marks Op)

mutual

def HirExpr.touches : HirExpr Op → Bool
  | .local_ id => t.local_ id
  | .operator op operands => t.operator op || exprsTouch operands
  | .conditional condition value otherwise =>
      condition.touches || value.touches || otherwise.touches
  | .and lhs rhs => lhs.touches || rhs.touches
  | .or lhs rhs => lhs.touches || rhs.touches
  | .mapInside _ _ source to_ => source.touches || to_.touches
  | .call callee args => t.callee callee || argsTouch args
  | .ofCall callee operand => t.callee callee || operand.touches

def exprsTouch : List (HirExpr Op) → Bool
  | [] => false
  | e :: es => e.touches || exprsTouch es

def argsTouch : List (Arg (HirExpr Op)) → Bool
  | [] => false
  | .positional e :: args => e.touches || argsTouch args
  | .named _ e :: args => e.touches || argsTouch args

end

/-- The call of a `do`, or the operands of a mutation. -/
def Action.touches : Action Op Verb → Bool
  | .perform call => call.touches t
  | .mutation _ operands => exprsTouch t operands

def bodyTouches (body : FunctionBody Op Verb) : Bool :=
  blockTouches (HirExpr.touches t) (Action.touches t) body

variable {t} {t' : Marks Op}

mutual

theorem HirExpr.touches_or (e : HirExpr Op) :
    e.touches (t.or t') = (e.touches t || e.touches t') := by
  match e with
  | .local_ id => rfl
  | .operator op operands =>
      rw [HirExpr.touches, HirExpr.touches, HirExpr.touches, exprsTouch_or operands]
      simp only [Marks.or]
      ac_rfl
  | .conditional condition value otherwise =>
      rw [HirExpr.touches, HirExpr.touches, HirExpr.touches, condition.touches_or,
        value.touches_or, otherwise.touches_or]
      ac_rfl
  | .and first second | .or first second | .mapInside _ _ first second =>
      rw [HirExpr.touches, HirExpr.touches, HirExpr.touches, first.touches_or, second.touches_or]
      ac_rfl
  | .call callee args =>
      rw [HirExpr.touches, HirExpr.touches, HirExpr.touches, argsTouch_or args]
      simp only [Marks.or]
      ac_rfl
  | .ofCall callee operand =>
      rw [HirExpr.touches, HirExpr.touches, HirExpr.touches, operand.touches_or]
      simp only [Marks.or]
      ac_rfl

theorem exprsTouch_or (es : List (HirExpr Op)) :
    exprsTouch (t.or t') es = (exprsTouch t es || exprsTouch t' es) := by
  match es with
  | [] => rfl
  | e :: es =>
      rw [exprsTouch, exprsTouch, exprsTouch, e.touches_or, exprsTouch_or es]
      ac_rfl

theorem argsTouch_or (args : List (Arg (HirExpr Op))) :
    argsTouch (t.or t') args = (argsTouch t args || argsTouch t' args) := by
  match args with
  | [] => rfl
  | .positional e :: args =>
      rw [argsTouch, argsTouch, argsTouch, e.touches_or, argsTouch_or args]
      ac_rfl
  | .named _ e :: args =>
      rw [argsTouch, argsTouch, argsTouch, e.touches_or, argsTouch_or args]
      ac_rfl

end

theorem Action.touches_or (action : Action Op Verb) :
    action.touches (t.or t') = (action.touches t || action.touches t') := by
  cases action with
  | perform call => exact call.touches_or
  | mutation verb operands => exact exprsTouch_or operands

theorem bodyTouches_or (body : FunctionBody Op Verb) :
    bodyTouches (t.or t') body = (bodyTouches t body || bodyTouches t' body) := by
  unfold bodyTouches
  rw [← blockTouches_or]
  exact blockTouches_congr HirExpr.touches_or Action.touches_or body

def Marks.nothing : Marks Op := ⟨fun _ => false, fun _ => false, fun _ => false⟩

mutual

theorem HirExpr.touches_nothing (e : HirExpr Op) : e.touches Marks.nothing = false := by
  match e with
  | .local_ _ => rfl
  | .operator _ operands => rw [HirExpr.touches, exprsTouch_nothing operands]; rfl
  | .conditional condition value otherwise =>
      rw [HirExpr.touches, condition.touches_nothing, value.touches_nothing,
        otherwise.touches_nothing]
      rfl
  | .and lhs rhs => rw [HirExpr.touches, lhs.touches_nothing, rhs.touches_nothing]; rfl
  | .or lhs rhs => rw [HirExpr.touches, lhs.touches_nothing, rhs.touches_nothing]; rfl
  | .mapInside _ _ source to_ =>
      rw [HirExpr.touches, source.touches_nothing, to_.touches_nothing]
      rfl
  | .call _ args => rw [HirExpr.touches, argsTouch_nothing args]; rfl
  | .ofCall _ operand => rw [HirExpr.touches, operand.touches_nothing]; rfl

theorem exprsTouch_nothing (es : List (HirExpr Op)) :
    exprsTouch Marks.nothing es = false := by
  match es with
  | [] => rfl
  | e :: es => rw [exprsTouch, e.touches_nothing, exprsTouch_nothing es]; rfl

theorem argsTouch_nothing (args : List (Arg (HirExpr Op))) :
    argsTouch Marks.nothing args = false := by
  match args with
  | [] => rfl
  | .positional e :: args => rw [argsTouch, e.touches_nothing, argsTouch_nothing args]; rfl
  | .named _ e :: args => rw [argsTouch, e.touches_nothing, argsTouch_nothing args]; rfl

end

theorem Action.touches_nothing (action : Action Op Verb) :
    action.touches Marks.nothing = false := by
  cases action with
  | perform call => exact call.touches_nothing
  | mutation verb operands => exact exprsTouch_nothing operands

theorem bodyTouches_nothing (body : FunctionBody Op Verb) :
    bodyTouches Marks.nothing body = false := by
  unfold bodyTouches
  rw [blockTouches_congr HirExpr.touches_nothing Action.touches_nothing]
  exact blockTouches_nothing body

/-- What counts for `t` counts for `t'`. -/
structure Marks.Within (t t' : Marks Op) : Prop where
  operator : ∀ op, t.operator op = true → t'.operator op = true
  local_ : ∀ id, t.local_ id = true → t'.local_ id = true
  callee : ∀ id, t.callee id = true → t'.callee id = true

theorem Marks.Within.or_eq (h : t.Within t') : t.or t' = t' := by
  have hor {α : Type} {p q : α → Bool} (hpq : ∀ x, p x = true → q x = true) :
      (fun x => p x || q x) = q := by
    funext x
    cases hp : p x with
    | false => rfl
    | true => rw [hpq x hp, Bool.or_self]
  unfold Marks.or
  rw [hor h.operator, hor h.local_, hor h.callee]

theorem HirExpr.touches_mono (h : t.Within t') {e : HirExpr Op} (he : e.touches t = true) :
    e.touches t' = true := by
  rw [← h.or_eq, touches_or, he, Bool.true_or]

theorem bodyTouches_mono (h : t.Within t') {body : FunctionBody Op Verb}
    (hbody : bodyTouches t body = true) : bodyTouches t' body = true := by
  rw [← h.or_eq, bodyTouches_or, hbody, Bool.true_or]

end Expressions

end Bodies
end Zdeceptron
