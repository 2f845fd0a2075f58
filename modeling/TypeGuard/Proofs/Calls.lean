import TypeGuard.Proofs.Admission

/-!
# What written code calls

The code of a guard calls a function by name in two kinds of places.  A reference calls the
guard of its alias, and an array is tested with the array guard.  So the calls of a guard
are those of the nodes of its type, each with one call or none, whatever was hoisted where.
-/

namespace TypeGuard

/-! ## Expressions and their parts -/

namespace Expr

mutual

def parts : Expr → List Expr
  | .ident name => [.ident name]
  | .literal value => [.literal value]
  | .typeOf operand => .typeOf operand :: parts operand
  | .strictEq left right => .strictEq left right :: (parts left ++ parts right)
  | .strictNe left right => .strictNe left right :: (parts left ++ parts right)
  | .not operand => .not operand :: parts operand
  | .and left right => .and left right :: (parts left ++ parts right)
  | .or left right => .or left right :: (parts left ++ parts right)
  | .member target name => .member target name :: parts target
  | .call callee arguments => .call callee arguments :: (parts callee ++ argumentParts arguments)
  | .object entries => .object entries :: entryParts entries

def argumentParts : List Expr → List Expr
  | [] => []
  | argument :: rest => parts argument ++ argumentParts rest

def entryParts : List (String × Expr) → List Expr
  | [] => []
  | (_, value) :: rest => parts value ++ entryParts rest

end

def ident? : Expr → Option String
  | .ident name => some name
  | _ => none

def callee? : Expr → Option String
  | .call callee _ => callee.ident?
  | _ => none

def idents (expr : Expr) : List String := expr.parts.filterMap ident?

def calls (expr : Expr) : List String := expr.parts.filterMap callee?

theorem filterMap_append_subset {α β : Type} {f g : α → Option β} {first second : List α}
    (hfirst : first.filterMap f ⊆ first.filterMap g)
    (hsecond : second.filterMap f ⊆ second.filterMap g) :
    (first ++ second).filterMap f ⊆ (first ++ second).filterMap g := by
  rw [List.filterMap_append, List.filterMap_append]
  exact List.append_subset.mpr ⟨List.subset_append_of_subset_left _ hfirst,
    List.subset_append_of_subset_right _ hsecond⟩

mutual

theorem calls_subset_idents (expr : Expr) : expr.calls ⊆ expr.idents := by
  match expr with
  | .ident _ | .literal _ => exact List.nil_subset _
  | .typeOf operand | .not operand | .member operand _ => exact calls_subset_idents operand
  | .strictEq left right | .strictNe left right | .and left right | .or left right =>
      exact filterMap_append_subset (calls_subset_idents left) (calls_subset_idents right)
  | .call callee arguments =>
      have hparts : (parts callee ++ argumentParts arguments).filterMap callee? ⊆
          (parts callee ++ argumentParts arguments).filterMap ident? :=
        filterMap_append_subset (calls_subset_idents callee) (argumentCalls_subset arguments)
      cases callee with
      | ident name => exact List.cons_subset.mpr ⟨List.mem_cons_self, hparts⟩
      | _ => exact hparts
  | .object entries => exact entryCalls_subset entries

theorem argumentCalls_subset (arguments : List Expr) :
    (argumentParts arguments).filterMap callee? ⊆ (argumentParts arguments).filterMap ident? := by
  match arguments with
  | [] => exact List.nil_subset _
  | argument :: rest =>
      exact filterMap_append_subset (calls_subset_idents argument) (argumentCalls_subset rest)

theorem entryCalls_subset (entries : List (String × Expr)) :
    (entryParts entries).filterMap callee? ⊆ (entryParts entries).filterMap ident? := by
  match entries with
  | [] => exact List.nil_subset _
  | (_, value) :: rest =>
      exact filterMap_append_subset (calls_subset_idents value) (entryCalls_subset rest)

end

theorem filterMap_parts_anyOf {f : Expr → Option String}
    (hor : ∀ left right, f (.or left right) = none)
    (hliteral : ∀ value, f (.literal value) = none) (tests : List Expr) :
    (Writing.anyOf tests).parts.filterMap f = tests.flatMap fun test => test.parts.filterMap f := by
  have hfold : ∀ (test : Expr) (rest : List Expr), (rest.foldl Expr.or test).parts.filterMap f =
      test.parts.filterMap f ++ rest.flatMap fun other => other.parts.filterMap f := by
    intro test rest
    induction rest generalizing test with
    | nil => simp
    | cons first others ih =>
        rw [List.foldl_cons, ih, parts, List.filterMap_cons_none (hor test first),
          List.filterMap_append, List.append_assoc, List.flatMap_cons]
  cases tests with
  | nil => exact List.filterMap_cons_none (hliteral _)
  | cons test rest => exact hfold test rest

@[simp] theorem calls_anyOf (tests : List Expr) :
    (Writing.anyOf tests).calls = tests.flatMap calls :=
  filterMap_parts_anyOf (fun _ _ => rfl) (fun _ => rfl) tests

@[simp] theorem idents_anyOf (tests : List Expr) :
    (Writing.anyOf tests).idents = tests.flatMap idents :=
  filterMap_parts_anyOf (fun _ _ => rfl) (fun _ => rfl) tests

end Expr

/-! ## Expressions of statements -/

mutual

def Stmt.exprs : Stmt → List Expr
  | .imports .. | .typeAlias .. => []
  | .function _ _ _ _ _ body => exprsIn body
  | .branch test body => test :: exprsIn body
  | .ret value => [value]
  | .destructure _ _ source => [source]
  | .const _ _ value => [value]

def exprsIn : List Stmt → List Expr
  | [] => []
  | stmt :: rest => stmt.exprs ++ exprsIn rest

end

def calledIn (body : List Stmt) : List String := (exprsIn body).flatMap Expr.calls

def Function.calls (f : Function) : List String := calledIn f.body

@[simp] theorem exprsIn_append (first second : List Stmt) :
    exprsIn (first ++ second) = exprsIn first ++ exprsIn second := by
  induction first with
  | nil => rfl
  | cons stmt rest ih => simp [exprsIn, ih]

@[simp] theorem calledIn_nil : calledIn [] = [] := rfl

@[simp] theorem calledIn_append (first second : List Stmt) :
    calledIn (first ++ second) = calledIn first ++ calledIn second := by
  simp [calledIn]

@[simp] theorem calledIn_guard (condition : Expr) (rest : List Stmt) :
    calledIn (.guard condition :: rest) = condition.calls ++ calledIn rest := by
  have hcalls : (Expr.not condition).calls ++ (Expr.bool false).calls = condition.calls :=
    List.append_nil _
  rw [calledIn, calledIn, exprsIn, Stmt.guard, Stmt.exprs, List.flatMap_append, ← hcalls]
  simp [exprsIn, Stmt.exprs]

@[simp] theorem calledIn_toStmt (f : Function) (rest : List Stmt) :
    calledIn (f.toStmt :: rest) = f.calls ++ calledIn rest := by
  simp [calledIn, exprsIn, Stmt.exprs, Function.toStmt, Function.calls]

@[simp] theorem calledIn_typeAlias (name : String) (params : List String) (type : TypeExpr)
    (rest : List Stmt) : calledIn (.typeAlias name params type :: rest) = calledIn rest := rfl

/-! ## Calls of written code -/

def TypeTree.Node.callee? (settings : Settings) : Node → Option String
  | ⟨_, _, .reference _ name⟩ => some (settings.guardName name)
  | ⟨_, _, .array ..⟩ => some Writing.arrayGuardName
  | _ => none

namespace Writing

open TypeTree

variable {settings : Settings}

theorem append_perm_interleave {α : Type} (a b c d : List α) :
    (a ++ b ++ (c ++ d)).Perm (a ++ c ++ (b ++ d)) := by
  simpa using (List.perm_append_comm_assoc b c d).append_left a

@[simp] theorem calls_checkedEntries (bindings : List Binding) :
    (Expr.object (checkedEntries bindings)).calls = [] := by
  have hentries : (Expr.entryParts (checkedEntries bindings)).filterMap Expr.callee? = [] := by
    induction bindings with
    | nil => rfl
    | cons binding rest ih => exact ih
  exact hentries

theorem SelfCheckWritten.called {path : Path} {type : TypeExpr} {bindings : List Binding}
    {check : List Stmt} {before after : Draft}
    (h : SelfCheckWritten settings path type bindings before check after) :
    calledIn check = [] := by
  cases h with
  | off => rfl
  | on => simp [calledIn, exprsIn, Stmt.exprs]

@[simp] theorem calledIn_destructuring (type : TypeExpr) (target : String)
    (bindings : List Binding) :
    calledIn (destructuring type target bindings) = [] := by
  cases bindings <;> rfl

@[simp] theorem calls_literalTest (target : String) (value : Literal) :
    (literalTest target value).calls = [] := by
  cases value <;> rfl

mutual

theorem GuardWritten.called {name param : String} {type : TypeExpr} {path : Path}
    {exported : Bool} {tree : TypeTree} {guard : Function} {before after : Draft} (depth : Nat)
    (h : GuardWritten settings name type param path exported tree before guard after) :
    guard.calls.Perm ((tree.nodes depth path).filterMap (Node.callee? settings)) := by
  match h with
  | .intro hbody =>
      have hreturn : calledIn [.ret (Expr.bool true)] = [] := rfl
      rw [Function.calls, calledIn_append, calledIn_append, hreturn, List.append_nil]
      exact hbody.called depth

theorem AssertionsWritten.called {path : Path} {target : String} {type : TypeExpr}
    {tree : TypeTree} {assertions : Assertions} {before after : Draft} (depth : Nat)
    (h : AssertionsWritten settings path target type tree before assertions after) :
    (calledIn assertions.hoisted ++ calledIn assertions.body).Perm
      ((tree.nodes depth path).filterMap (Node.callee? settings)) := by
  match h with
  | .object hbound hinner hcheck =>
      have hattributes := hinner.called (depth + 1)
      rw [map_zip_properties hbound.properties] at hattributes
      have hobject : (objectTest target).calls = [] := rfl
      simp only [List.cons_append, calledIn_guard, calledIn_append, calledIn_destructuring,
        hcheck.called, hobject, List.nil_append, List.append_nil]
      exact hattributes
  | .union _ hmembers =>
      rw [calledIn_guard, Expr.calls_anyOf, List.flatMap_map, calledIn_nil, List.append_nil]
      exact hmembers.called (depth + 1)
  | .single hcondition => simpa using hcondition.called depth

theorem ConditionWritten.called {path : Path} {target : String} {tree : TypeTree}
    {condition : Condition} {before after : Draft} (depth : Nat)
    (h : ConditionWritten settings path target tree before condition after) :
    (calledIn condition.hoisted ++ condition.test.calls).Perm
      ((tree.nodes depth path).filterMap (Node.callee? settings)) := by
  match h with
  | .reference => exact .refl _
  | .primitive => exact .refl _
  | .literal => rw [calls_literalTest]; exact .refl _
  | .array _ _ _ hnested =>
      -- The element is hoisted, so that its calls come before the test of the array.
      rw [calledIn_typeAlias, calledIn_toStmt, calledIn_nil, List.append_nil]
      exact ((hnested.called (depth + 1)).append_right _).trans List.perm_append_comm

theorem MembersWritten.called {path : Path} {target : String} {index : Nat}
    {members : List TypeTree} {conditions : List Condition} {before after : Draft} (depth : Nat)
    (h : MembersWritten settings path target index members before conditions after) :
    (calledIn (conditions.flatMap (·.hoisted)) ++ conditions.flatMap (·.test.calls)).Perm
      ((memberNodes depth path index members).filterMap (Node.callee? settings)) := by
  match h with
  | .nil => exact .refl _
  | .cons hfirst hrest =>
      rw [List.flatMap_cons, List.flatMap_cons, calledIn_append, memberNodes,
        List.filterMap_append]
      exact (append_perm_interleave _ _ _ _).trans
        ((hfirst.called depth).append (hrest.called depth))

theorem AttributesWritten.called {path : Path} {type : TypeExpr}
    {attributes : List (Binding × TypeTree)} {assertions : Assertions} {before after : Draft}
    (depth : Nat) (h : AttributesWritten settings path type attributes before assertions after) :
    (calledIn assertions.hoisted ++ calledIn assertions.body).Perm
      ((attributeNodes depth path
        (attributes.map fun attr => (attr.1.property, attr.2))).filterMap
          (Node.callee? settings)) := by
  match h with
  | .nil => exact .refl _
  | .cons hfirst hrest =>
      rw [Assertions.append, calledIn_append, calledIn_append, List.map_cons, attributeNodes,
        List.filterMap_append]
      exact (append_perm_interleave _ _ _ _).trans
        ((hfirst.called depth).append (hrest.called depth))

end

end Writing

end TypeGuard
