import Terrier.Execution.Scope
import Terrier.Execution.FunctionInfo

/-!
Lexical scoping of compiled functions. The analysis takes the type of the outermost visible
declaration of a name, and the generator the local that was allocated first; they agree with the
innermost declaration exactly where it is the first of that name in the function.
-/

namespace Terrier.Tpl

open List Option Scopes TypeRules

variable {τ : Type}

structure Declaration (τ : Type) where
  name : Identifier
  slot : Option LocalId
  type : τ

abbrev Visible (τ : Type) := List (Declaration τ)

namespace Visible

def innermost (visible : Visible τ) (name : Identifier) : Option (Declaration τ) :=
  visible.find? fun d => d.name = name

def outermost (visible : Visible τ) (name : Identifier) : Option (Declaration τ) :=
  visible.reverse.find? fun d => d.name = name

def declareAll (visible : Visible τ) (decls : List (Declaration τ)) : Visible τ :=
  decls.reverse ++ visible

end Visible

/-- A compiled identifier, with what is allocated in the function before it. -/
structure Use (τ : Type) where
  name : Identifier
  scopes : Scopes τ
  visible : Visible τ
  before : List Allocation

theorem checkStmt_rejected {rules : TypeRules τ} {path : List Nat} {scopes scopes' : Scopes τ}
    {statement : Stmt} (h : rules.checkStmt path scopes statement = some scopes') :
    (∀ name typeRepr, statement ≠ .decl (.struct name typeRepr)) ∧
      (∀ name function, statement ≠ .decl (.function name function)) ∧
      ∀ target iter body, statement ≠ .forIn target iter body := by
  refine ⟨?_, ?_, ?_⟩ <;> (intros; rintro rfl; simp [checkStmt] at h)

section Uses

variable (rules : TypeRules τ) (a : Allocator)

mutual

/-- The declarations behind a statement. They have no locals yet if the statement is visited
later. -/
def bindStmt (visited : Bool) (path : List Nat) (scopes : Scopes τ) (visible : Visible τ) :
    Stmt → Visible τ
  | .decl (.variable name typeRepr initial) =>
    match rules.declaredType path scopes typeRepr initial with
    | some type => ⟨name, if visited then some (.variable path) else none, type⟩ :: visible
    | none => visible
  | .if _ thenStmt elseStmt =>
    bindStmt? visited (2 :: path) ((rules.checkStmt (1 :: path) scopes thenStmt).getD scopes)
      (bindStmt visited (1 :: path) scopes visible thenStmt) elseStmt
  | _ => visible

def bindStmt? (visited : Bool) (path : List Nat) (scopes : Scopes τ) (visible : Visible τ) :
    Option Stmt → Visible τ
  | none => visible
  | some statement => bindStmt visited path scopes visible statement

end

def usesFrom (path : List Nat) (expression : Expr)
    (operands : List (List Allocation × (List Allocation → List (Use τ)))) :
    Nat → List Nat → List Allocation → List (Use τ)
  | _, [], _ => []
  | k, operand :: rest, before =>
    let before := before ++ a.newTemporaries path expression k
    let visit := operands.getD operand ([], fun _ => [])
    visit.2 before ++ usesFrom path expression operands (k + 1) rest (before ++ visit.1)

def usesNode (path : List Nat) (expression : Expr)
    (operands : List (List Allocation × (List Allocation → List (Use τ)))) :
    List Allocation → List (Use τ) :=
  usesFrom a path expression operands 0 (a.visited path expression)

def literalDecls (path : List Nat) (scopes : Scopes τ) (typeRepr : Expr) : List (Declaration τ) :=
  (rules.literalParams path scopes typeRepr).map fun param => ⟨param.1, none, param.2⟩

mutual

def usesExpr (path : List Nat) (scopes : Scopes τ) (visible : Visible τ) :
    Expr → List Allocation → List (Use τ)
  | .identifier name, before =>
    [⟨name, scopes, visible, before ++ a.newTemporaries path (.identifier name) 0⟩]
  | .binaryOp op left right, before =>
    usesNode a path (.binaryOp op left right)
      [(a.visitExpr (0 :: path) left, usesExpr (0 :: path) scopes visible left),
        (a.visitExpr (1 :: path) right, usesExpr (1 :: path) scopes visible right)] before
  | .comparisonOp op left right, before =>
    usesNode a path (.comparisonOp op left right)
      [(a.visitExpr (0 :: path) left, usesExpr (0 :: path) scopes visible left),
        (a.visitExpr (1 :: path) right, usesExpr (1 :: path) scopes visible right)] before
  | .call function arguments, before =>
    usesNode a path (.call function arguments) (usesExprs path scopes visible 0 arguments) before
  | .builtinCall function arguments, before =>
    usesNode a path (.builtinCall function arguments)
      (usesExprs path scopes visible 0 arguments) before
  | .index object index, before =>
    usesNode a path (.index object index)
      [(a.visitExpr (0 :: path) object, usesExpr (0 :: path) scopes visible object),
        (a.visitExpr (1 :: path) index, usesExpr (1 :: path) scopes visible index)] before
  | .member object member, before =>
    usesNode a path (.member object member)
      [(a.visitExpr (0 :: path) object, usesExpr (0 :: path) scopes visible object)] before
  | .unaryOp op expression, before =>
    usesNode a path (.unaryOp op expression) [(a.visitExpr (0 :: path) expression,
        usesExpr (0 :: path) scopes visible expression)] before
  | .functionLit typeRepr body, before =>
    usesStmt (0 :: path)
      (Scopes.declareAll ([] :: scopes) (rules.literalParams path scopes typeRepr))
      (visible.declareAll (literalDecls rules path scopes typeRepr)) body before
  | _, _ => []

def usesExprs (path : List Nat) (scopes : Scopes τ) (visible : Visible τ) :
    Nat → List Expr → List (List Allocation × (List Allocation → List (Use τ)))
  | _, [] => []
  | k, expression :: expressions =>
    (a.visitExpr (k :: path) expression, usesExpr (k :: path) scopes visible expression) ::
      usesExprs path scopes visible (k + 1) expressions

/-- The identifiers that the generator visits in a statement. The analysis comes to the step of a
loop before the body, the generator behind it. -/
def usesStmt (path : List Nat) (scopes : Scopes τ) (visible : Visible τ) :
    Stmt → List Allocation → List (Use τ)
  | .assignment destination source, before =>
    usesExpr (0 :: path) scopes visible destination before ++
      usesExpr (1 :: path) scopes visible source (before ++ a.visitExpr (0 :: path) destination)
  | .block statements, before => usesStmts path ([] :: scopes) visible 0 statements before
  | .decl (.variable name _ initial), before =>
    usesExpr? (0 :: path) scopes visible initial (before ++ [.variable name path])
  | .decl _, _ => []
  | .expression expression, before => usesExpr (0 :: path) scopes visible expression before
  | .for init condition next body, before =>
    let afterInit := (rules.checkStmt? (0 :: path) ([] :: scopes) init).getD ([] :: scopes)
    let boundInit := bindStmt? rules true (0 :: path) ([] :: scopes) visible init
    let afterNext := (rules.checkStmt? (3 :: path) afterInit next).getD afterInit
    let boundNext := bindStmt? rules false (3 :: path) afterInit boundInit next
    let withInit := before ++ a.visitStmt? (0 :: path) init
    let withCond := withInit ++ a.visitExpr? (1 :: path) condition
    let withBody := withCond ++ a.visitStmt (2 :: path) body
    usesStmt? (0 :: path) ([] :: scopes) visible init before ++
      (usesExpr? (1 :: path) afterInit boundInit condition withInit ++
        (usesStmt (2 :: path) afterNext boundNext body withCond ++
          usesStmt? (3 :: path) afterInit boundInit next withBody))
  | .forIn .., _ => []
  | .if condition thenStmt elseStmt, before =>
    let afterThen := (rules.checkStmt (1 :: path) scopes thenStmt).getD scopes
    let boundThen := bindStmt rules true (1 :: path) scopes visible thenStmt
    let withCond := before ++ a.visitExpr (0 :: path) condition
    let withThen := withCond ++ a.visitStmt (1 :: path) thenStmt
    usesExpr (0 :: path) scopes visible condition before ++
      (usesStmt (1 :: path) scopes visible thenStmt withCond ++
        usesStmt? (2 :: path) afterThen boundThen elseStmt withThen)
  | .return ret, before => usesExpr? (0 :: path) scopes visible ret before

def usesStmts (path : List Nat) (scopes : Scopes τ) (visible : Visible τ) :
    Nat → List Stmt → List Allocation → List (Use τ)
  | _, [], _ => []
  | k, statement :: statements, before =>
    usesStmt (k :: path) scopes visible statement before ++
      usesStmts path ((rules.checkStmt (k :: path) scopes statement).getD scopes)
        (bindStmt rules true (k :: path) scopes visible statement) (k + 1) statements
        (before ++ a.visitStmt (k :: path) statement)

def usesExpr? (path : List Nat) (scopes : Scopes τ) (visible : Visible τ) :
    Option Expr → List Allocation → List (Use τ)
  | none, _ => []
  | some expression, before => usesExpr path scopes visible expression before

def usesStmt? (path : List Nat) (scopes : Scopes τ) (visible : Visible τ) :
    Option Stmt → List Allocation → List (Use τ)
  | none, _ => []
  | some statement, before => usesStmt path scopes visible statement before

end

end Uses

def Agree (scopes : Scopes τ) (visible : Visible τ) : Prop :=
  ∀ name, scopes.lookup name = (visible.outermost name).map Declaration.type

theorem outermost_cons (visible : Visible τ) (d : Declaration τ) (name : Identifier) :
    Visible.outermost (d :: visible) name =
      (visible.outermost name).or (if d.name = name then some d else none) := by
  rw [Visible.outermost, reverse_cons, find?_append, find?_singleton]
  simp [Visible.outermost]

section Scopes

variable {scopes : Scopes τ} {visible : Visible τ}

theorem lookup_declare (hscopes : scopes ≠ []) (name : Identifier) (type : τ) (other : Identifier) :
    (scopes.declare name type).lookup other =
      (scopes.lookup other).or (if name = other then some type else none) := by
  obtain ⟨scope, outer, rfl⟩ := exists_cons_of_ne_nil hscopes
  rw [Scopes.declare]
  split
  · next hvis =>
      split
      · next heq =>
          subst heq
          rw [or_of_isSome hvis]
      · rw [or_none]
  · next hnot =>
      have hnone : Scopes.lookup (scope :: outer) name = none := by simpa using hnot
      split
      · next heq =>
          subst heq
          rw [hnone]
          simp [Scopes.lookup, Scopes.lookupLocal]
      · next hne =>
          rw [or_none]
          simp [Scopes.lookup, Scopes.lookupLocal, findSome?_cons, hne]

theorem declare_ne_nil (hscopes : scopes ≠ []) (name : Identifier) (type : τ) :
    scopes.declare name type ≠ [] := by
  rw [declare]
  split
  · exact hscopes
  · exact cons_ne_nil _ _

structure Matched (scopes : Scopes τ) (visible : Visible τ) : Prop where
  ne : scopes ≠ []
  agree : Agree scopes visible

namespace Matched

theorem opened (h : Matched scopes visible) : Matched ([] :: scopes) visible :=
  ⟨cons_ne_nil _ _, h.agree⟩

theorem declare (h : Matched scopes visible) (d : Declaration τ) :
    Matched (scopes.declare d.name d.type) (d :: visible) := by
  refine ⟨declare_ne_nil h.ne _ _, fun name => ?_⟩
  rw [lookup_declare h.ne, outermost_cons, map_or, ← h.agree name]
  split <;> rfl

theorem declareAll (h : Matched scopes visible) (decls : List (Declaration τ)) :
    Matched (scopes.declareAll (decls.map fun d => (d.name, d.type)))
      (visible.declareAll decls) := by
  induction decls generalizing scopes visible with
  | nil => exact h
  | cons d decls ih =>
    have hrest := ih (h.declare d)
    rw [Visible.declareAll, reverse_cons, append_assoc]
    exact hrest

end Matched

theorem literalDecls_params (rules : TypeRules τ) (path : List Nat) (scopes : Scopes τ)
    (typeRepr : Expr) :
    ((literalDecls rules path scopes typeRepr).map fun d => (d.name, d.type)) =
      rules.literalParams path scopes typeRepr := by
  rw [literalDecls, List.map_map]
  exact map_id _

def SameOuter (scopes scopes' : Scopes τ) : Prop :=
  scopes' ≠ [] ∧ scopes'.tail = scopes.tail

theorem SameOuter.trans {scopes₁ scopes₂ scopes₃ : Scopes τ} (h : SameOuter scopes₁ scopes₂)
    (h' : SameOuter scopes₂ scopes₃) : SameOuter scopes₁ scopes₃ :=
  ⟨h'.1, h'.2.trans h.2⟩

theorem sameOuter_declare (hscopes : scopes ≠ []) (name : Identifier) (type : τ) :
    SameOuter scopes (scopes.declare name type) := by
  refine ⟨declare_ne_nil hscopes name type, ?_⟩
  rw [declare]
  split <;> rfl

section Checked

variable {rules : TypeRules τ} {path : List Nat} {scopes' : Scopes τ}

theorem of_guards {p q : Prop} [Decidable p] [Decidable q]
    (h : (if p then if q then some scopes else none else none) = some scopes') :
    q ∧ scopes' = scopes := by
  obtain ⟨-, h⟩ := ite_none_right_eq_some.1 h
  obtain ⟨hcheck, h⟩ := ite_none_right_eq_some.1 h
  exact ⟨hcheck, (some.inj h).symm⟩

theorem checkStmt_assignment {destination source : Expr}
    (h : rules.checkStmt path scopes (.assignment destination source) = some scopes') :
    rules.checkExpr (0 :: path) scopes destination = true ∧
      rules.checkExpr (1 :: path) scopes source = true ∧ scopes' = scopes := by
  rw [checkStmt] at h
  obtain ⟨hcheck, hsame⟩ := of_guards h
  rw [Bool.and_eq_true] at hcheck
  exact ⟨hcheck.1, hcheck.2, hsame⟩

theorem checkStmt_block {statements : List Stmt}
    (h : rules.checkStmt path scopes (.block statements) = some scopes') :
    ∃ after, rules.checkStmts path ([] :: scopes) 0 statements = some after ∧
      scopes' = after.tail := by
  rw [checkStmt] at h
  obtain ⟨-, h⟩ := ite_none_right_eq_some.1 h
  obtain ⟨after, hafter, h⟩ := bind_eq_some_iff.1 h
  exact ⟨after, hafter, (some.inj h).symm⟩

theorem checkStmt_variable {name : Identifier} {typeRepr initial : Option Expr}
    (h : rules.checkStmt path scopes (.decl (.variable name typeRepr initial)) = some scopes') :
    rules.checkExpr? (0 :: path) scopes initial = true ∧
      ∃ type, rules.declaredType path scopes typeRepr initial = some type ∧
        scopes' = scopes.declare name type := by
  rw [checkStmt] at h
  obtain ⟨-, h⟩ := ite_none_right_eq_some.1 h
  obtain ⟨-, h⟩ := ite_none_left_eq_some.1 h
  obtain ⟨hcheck, h⟩ := ite_none_right_eq_some.1 h
  obtain ⟨type, htype, h⟩ := bind_eq_some_iff.1 h
  exact ⟨hcheck, type, htype, (some.inj h).symm⟩

theorem checkStmt_expression {expression : Expr}
    (h : rules.checkStmt path scopes (.expression expression) = some scopes') :
    rules.checkExpr (0 :: path) scopes expression = true ∧ scopes' = scopes := by
  rw [checkStmt] at h
  exact of_guards h

theorem checkStmt_return {ret : Option Expr}
    (h : rules.checkStmt path scopes (.return ret) = some scopes') :
    rules.checkExpr? (0 :: path) scopes ret = true ∧ scopes' = scopes := by
  rw [checkStmt] at h
  exact of_guards h

theorem checkStmt_for {init next : Option Stmt} {condition : Option Expr} {body : Stmt}
    (h : rules.checkStmt path scopes (.for init condition next body) = some scopes') :
    ∃ afterInit afterNext afterBody,
      rules.checkStmt? (0 :: path) ([] :: scopes) init = some afterInit ∧
      rules.checkExpr? (1 :: path) afterInit condition = true ∧
      rules.checkStmt? (3 :: path) afterInit next = some afterNext ∧
      rules.checkStmt (2 :: path) afterNext body = some afterBody ∧
      scopes' = afterBody.tail := by
  rw [checkStmt] at h
  obtain ⟨-, h⟩ := ite_none_right_eq_some.1 h
  obtain ⟨afterInit, hinit, h⟩ := bind_eq_some_iff.1 h
  obtain ⟨hcheck, h⟩ := ite_none_right_eq_some.1 h
  obtain ⟨afterNext, hnext, h⟩ := bind_eq_some_iff.1 h
  obtain ⟨afterBody, hbody, h⟩ := bind_eq_some_iff.1 h
  exact ⟨afterInit, afterNext, afterBody, hinit, hcheck, hnext, hbody, (some.inj h).symm⟩

theorem checkStmt_if {condition : Expr} {thenStmt : Stmt} {elseStmt : Option Stmt}
    (h : rules.checkStmt path scopes (.if condition thenStmt elseStmt) = some scopes') :
    rules.checkExpr (0 :: path) scopes condition = true ∧
      ∃ afterThen, rules.checkStmt (1 :: path) scopes thenStmt = some afterThen ∧
        rules.checkStmt? (2 :: path) afterThen elseStmt = some scopes' := by
  rw [checkStmt] at h
  obtain ⟨-, h⟩ := ite_none_right_eq_some.1 h
  obtain ⟨hcheck, h⟩ := ite_none_right_eq_some.1 h
  obtain ⟨afterThen, hthen, h⟩ := bind_eq_some_iff.1 h
  exact ⟨hcheck, afterThen, hthen, h⟩

end Checked

end Scopes

def Allocation.declared? : Allocation → Option LocalInfo
  | .variable name path => some ⟨name, .variable path⟩
  | .temporary => none

/-- The variables among what is allocated. -/
def declared (allocations : List Allocation) : List LocalInfo :=
  allocations.filterMap Allocation.declared?

/-- The declarations with locals are parameters or allocated. -/
def Allocated (params : List LocalInfo) (visible : Visible τ) (before : List Allocation) : Prop :=
  ∀ d ∈ visible, ∀ slot ∈ d.slot, ⟨d.name, slot⟩ ∈ params ++ declared before

structure Use.Sound (params : List LocalInfo) (all : List Allocation) (u : Use τ) : Prop where
  agree : Agree u.scopes u.visible
  allocated : Allocated params u.visible u.before
  within : u.before <+: all

def AgreeAll (params : List LocalInfo) (visible : Visible τ) (visit : List Allocation)
    (uses : List Allocation → List (Use τ)) : Prop :=
  ∀ before, Allocated params visible before → ∀ u ∈ uses before, u.Sound params (before ++ visit)

section Allocated

variable {params : List LocalInfo} {visible visible' : Visible τ}
  {before visit visit' : List Allocation} {uses uses' : List Allocation → List (Use τ)}

theorem Allocated.mono (h : Allocated params visible before) {after : List Allocation}
    (hsub : before ⊆ after) : Allocated params visible after := by
  intro d hd slot hslot
  have hmem := h d hd slot hslot
  rw [mem_append] at hmem ⊢
  exact hmem.imp_right fun h => filterMap_subset _ hsub h

theorem Allocated.append (h : Allocated params visible before) (more : List Allocation) :
    Allocated params visible (before ++ more) :=
  h.mono (subset_append_left _ _)

theorem Allocated.declareAll (h : Allocated params visible before) {decls : List (Declaration τ)}
    (hdecls : ∀ d ∈ decls, ∀ slot ∈ d.slot, ⟨d.name, slot⟩ ∈ params ++ declared before) :
    Allocated params (visible.declareAll decls) before := by
  intro d hd
  rw [Visible.declareAll, mem_append, mem_reverse] at hd
  exact hd.elim (hdecls d) (h d)

theorem agreeAll_nil (params : List LocalInfo) (visible : Visible τ) (visit : List Allocation) :
    AgreeAll params visible visit fun _ => [] := by
  intro before _ u hu
  cases hu

/-- What comes later sees the declarations that are allocated in between. -/
theorem AgreeAll.append (h : AgreeAll params visible visit uses)
    (h' : AgreeAll params visible' visit' uses')
    (hvis : ∀ before, Allocated params visible before →
      Allocated params visible' (before ++ visit)) :
    AgreeAll params visible (visit ++ visit') fun before =>
      uses before ++ uses' (before ++ visit) := by
  intro before hbef u hu
  rw [← append_assoc]
  obtain hu | hu := mem_append.1 hu
  · have hsound := h before hbef u hu
    exact ⟨hsound.agree, hsound.allocated, hsound.within.trans (prefix_append _ _)⟩
  · exact h' _ (hvis before hbef) u hu

theorem agreeAll_node {a : Allocator} (path : List Nat) (expression : Expr)
    {operands : List (List Allocation × (List Allocation → List (Use τ)))}
    (h : ∀ operand ∈ operands, AgreeAll params visible operand.1 operand.2) :
    AgreeAll params visible (a.node path expression (operands.map Prod.fst))
      (usesNode a path expression operands) := by
  have hop (i : Nat) : (operands.map Prod.fst).getD i [] =
        (operands.getD i ([], fun _ => [])).1 ∧
      AgreeAll params visible (operands.getD i ([], fun _ => [])).1
        (operands.getD i ([], fun _ => [])).2 := by
    rw [getD_eq_getElem?_getD, getD_eq_getElem?_getD, getElem?_map]
    cases hget : operands[i]? with
    | none => exact ⟨rfl, agreeAll_nil _ _ _⟩
    | some operand => exact ⟨rfl, h operand (mem_of_getElem? hget)⟩
  have hfrom (visited : List Nat) (k : Nat) :
      AgreeAll params visible (a.nodeFrom path expression (operands.map Prod.fst) k visited)
        (usesFrom a path expression operands k visited) := by
    induction visited generalizing k with
    | nil => exact agreeAll_nil _ _ _
    | cons operand visited ih =>
      have hrest := (hop operand).2.append (ih (k + 1)) fun _ h => h.append _
      rw [Allocator.nodeFrom, (hop operand).1]
      exact (agreeAll_nil _ _ (a.newTemporaries path expression k)).append hrest
        fun _ h => h.append _
  exact hfrom _ 0

end Allocated

/-- What holds of a statement: `bound` are the declarations behind it. -/
structure StmtAgrees (params : List LocalInfo) (scopes scopes' : Scopes τ) (visible : Visible τ)
    (bound : Bool → Visible τ) (visit : List Allocation) (uses : List Allocation → List (Use τ)) :
    Prop where
  sameOuter : SameOuter scopes scopes'
  agree : ∀ visited, Agree scopes' (bound visited)
  allocated : ∀ visited known, Allocated params visible known →
    (visited = true → visit ⊆ known) → Allocated params (bound visited) known
  uses : AgreeAll params visible visit uses

theorem AgreeAll.stmtAgrees {params : List LocalInfo} {scopes : Scopes τ} {visible : Visible τ}
    {visit : List Allocation} {uses : List Allocation → List (Use τ)}
    (h : AgreeAll params visible visit uses) (hm : Matched scopes visible) :
    StmtAgrees params scopes scopes visible (fun _ => visible) visit uses :=
  ⟨⟨hm.ne, rfl⟩, fun _ => hm.agree, fun _ _ h _ => h, h⟩

section

variable (rules : TypeRules τ) (a : Allocator) (params : List LocalInfo)

theorem fst_usesExprs (path : List Nat) (scopes : Scopes τ) (visible : Visible τ) (k : Nat)
    (expressions : List Expr) :
    (usesExprs rules a path scopes visible k expressions).map Prod.fst =
      a.visitExprs path k expressions := by
  induction expressions generalizing k with
  | nil => rfl
  | cons expression expressions ih => exact congrArg _ (ih (k + 1))

mutual

theorem agreeAll_usesExpr (path : List Nat) (expression : Expr) {scopes : Scopes τ}
    {visible : Visible τ} (hm : Matched scopes visible)
    (h : rules.checkExpr path scopes expression = true) :
    AgreeAll params visible (a.visitExpr path expression)
      (usesExpr rules a path scopes visible expression) := by
  match expression, h with
  | .identifier name, h =>
    intro before hbef u hu
    obtain rfl := mem_singleton.1 hu
    refine ⟨hm.agree, hbef.append _, (prefix_append_right_inj _).2 ?_⟩
    have hvisit : a.visitExpr path (.identifier name) =
        a.nodeFrom path (.identifier name) [] 0 (a.visited path (.identifier name)) := rfl
    rw [hvisit]
    cases a.visited path (.identifier name) with
    | nil => exact prefix_refl _
    | cons operand rest => exact prefix_append _ _
  | .binaryOp _ left right, h | .comparisonOp _ left right, h | .index left right, h =>
    rw [checkExpr, Bool.and_eq_true] at h
    have hleft := agreeAll_usesExpr (0 :: path) left hm h.1
    have hright := agreeAll_usesExpr (1 :: path) right hm h.2
    exact agreeAll_node path _ (forall_mem_cons.2 ⟨hleft, forall_mem_singleton.2 hright⟩)
  | .call function arguments, h | .builtinCall function arguments, h =>
    have hnode (expression : Expr) := agreeAll_node (a := a) path expression
      (agreeAll_usesExprs path 0 arguments hm h)
    rw [fst_usesExprs] at hnode
    exact hnode _
  | .member operand _, h | .unaryOp _ operand, h =>
    have hop := agreeAll_usesExpr (0 :: path) operand hm h
    exact agreeAll_node path _ (forall_mem_singleton.2 hop)
  | .functionLit typeRepr body, h =>
    obtain ⟨after, hafter⟩ := isSome_iff_exists.1 h
    have hparams := hm.opened.declareAll (literalDecls rules path scopes typeRepr)
    rw [literalDecls_params] at hparams
    intro before hbef
    -- The parameters of a literal have no locals.
    have hliteral : Allocated params
        (visible.declareAll (literalDecls rules path scopes typeRepr)) before := by
      apply hbef.declareAll
      intro d hd slot hslot
      obtain ⟨param, -, rfl⟩ := List.mem_map.1 hd
      cases hslot
    exact (stmtAgrees (0 :: path) body hparams hafter).uses before hliteral
  | .bad, _ | .nilLit, _ | .boolLit _, _ | .intLit _, _ | .floatLit _, _ | .stringLit _, _
  | .arrayType .., _ | .functionType .., _ | .mapType .., _ | .pointerType _, _
  | .structType _, _ => exact agreeAll_nil _ _ _

theorem agreeAll_usesExprs (path : List Nat) (k : Nat) (expressions : List Expr)
    {scopes : Scopes τ} {visible : Visible τ} (hm : Matched scopes visible)
    (h : rules.checkExprs path scopes k expressions = true) :
    ∀ operand ∈ usesExprs rules a path scopes visible k expressions,
      AgreeAll params visible operand.1 operand.2 := by
  match expressions, h with
  | [], h =>
    intro operand hop
    cases hop
  | expression :: expressions, h =>
    rw [checkExprs, Bool.and_eq_true] at h
    have hfirst := agreeAll_usesExpr (k :: path) expression hm h.1
    have hrest := agreeAll_usesExprs path (k + 1) expressions hm h.2
    exact forall_mem_cons.2 ⟨hfirst, hrest⟩

theorem stmtAgrees (path : List Nat) (statement : Stmt) {scopes scopes' : Scopes τ}
    {visible : Visible τ} (hm : Matched scopes visible)
    (h : rules.checkStmt path scopes statement = some scopes') :
    StmtAgrees params scopes scopes' visible
      (fun visited => bindStmt rules visited path scopes visible statement)
      (a.visitStmt path statement) (usesStmt rules a path scopes visible statement) := by
  match statement, h with
  | .assignment destination source, h =>
    obtain ⟨hdestination, hsrc, rfl⟩ := checkStmt_assignment h
    have huses := agreeAll_usesExpr (0 :: path) destination hm hdestination
    have huses' := agreeAll_usesExpr (1 :: path) source hm hsrc
    exact (huses.append huses' fun _ h => h.append _).stmtAgrees hm
  | .block statements, h =>
    obtain ⟨after, hafter, rfl⟩ := checkStmt_block h
    obtain ⟨hsame, huses⟩ := stmtsAgree path 0 statements hm.opened hafter
    rw [hsame.2]
    exact huses.stmtAgrees hm
  | .decl (.variable name typeRepr initial), h =>
    obtain ⟨hinitial, type, htype, rfl⟩ := checkStmt_variable h
    have huses := agreeAll_usesExpr? (0 :: path) initial hm hinitial
    refine ⟨sameOuter_declare hm.ne name type, fun visited => ?_, fun visited known h hknown => ?_,
      (agreeAll_nil _ _ [_]).append huses fun _ h => h.append _⟩
    · rw [bindStmt, htype]
      exact (hm.declare ⟨name, _, type⟩).agree
    · rw [bindStmt, htype]
      refine forall_mem_cons.2 ⟨fun slot hslot => ?_, h⟩
      obtain ⟨rfl, hslot⟩ := ite_none_right_eq_some.1 hslot
      have hmem : .variable name path ∈ known := hknown rfl mem_cons_self
      rw [← some.inj hslot]
      exact mem_append_right _ (mem_filterMap.2 ⟨_, hmem, rfl⟩)
  | .decl (.struct name typeRepr), h => exact absurd rfl ((checkStmt_rejected h).1 name typeRepr)
  | .decl (.function name function), h =>
    exact absurd rfl ((checkStmt_rejected h).2.1 name function)
  | .expression expression, h =>
    obtain ⟨hcheck, rfl⟩ := checkStmt_expression h
    exact (agreeAll_usesExpr (0 :: path) expression hm hcheck).stmtAgrees hm
  | .for init condition next body, h =>
    obtain ⟨afterInit, afterNext, afterBody, hinit, hcheck, hnext, hbody, rfl⟩ := checkStmt_for h
    have hagreesInit := stmt?Agrees (0 :: path) init hm.opened hinit
    have hmInit : Matched .. := ⟨hagreesInit.sameOuter.1, hagreesInit.agree true⟩
    have husesCond := agreeAll_usesExpr? (1 :: path) condition hmInit hcheck
    have hagreesNext := stmt?Agrees (3 :: path) next hmInit hnext
    have hagreesBody := stmtAgrees (2 :: path) body
      ⟨hagreesNext.sameOuter.1, hagreesNext.agree false⟩ hbody
    have hsame := (hagreesInit.sameOuter.trans hagreesNext.sameOuter).trans hagreesBody.sameOuter
    rw [hsame.2]
    -- The step has no locals yet where the body is visited.
    have husesBody : AgreeAll params _ (a.visitStmt (2 :: path) body) _ := fun before h =>
      hagreesBody.uses before (hagreesNext.allocated false before h fun hfalse => by cases hfalse)
    have hloop := husesCond.append (husesBody.append hagreesNext.uses fun _ h => h.append _)
      fun _ h => h.append _
    have huses := hagreesInit.uses.append hloop fun before h =>
      hagreesInit.allocated true _ (h.append _) fun _ => subset_append_right _ _
    simp only [usesStmt, hinit, hnext, getD_some]
    exact huses.stmtAgrees hm
  | .forIn target iter body, h =>
    exact absurd rfl ((checkStmt_rejected h).2.2 target iter body)
  | .if condition thenStmt elseStmt, h =>
    obtain ⟨hcheck, afterThen, hthen, helse⟩ := checkStmt_if h
    have hcond := agreeAll_usesExpr (0 :: path) condition hm hcheck
    have hagrees := stmtAgrees (1 :: path) thenStmt hm hthen
    have hrest (visited : Bool) := stmt?Agrees (2 :: path) elseStmt
      ⟨hagrees.sameOuter.1, hagrees.agree visited⟩ helse
    refine ⟨hagrees.sameOuter.trans (hrest true).sameOuter, fun visited => ?_,
      fun visited known h hknown => ?_, ?_⟩
    · rw [bindStmt, hthen]
      exact (hrest visited).agree visited
    · rw [bindStmt, hthen]
      apply (hrest visited).allocated visited known
      · exact hagrees.allocated visited known h fun hvisited _ hmem =>
          hknown hvisited (mem_append_right _ (mem_append_left _ hmem))
      · exact fun hvisited _ hmem => hknown hvisited (mem_append_right _ (mem_append_right _ hmem))
    · have hboth := hagrees.uses.append (hrest true).uses fun _ h =>
        hagrees.allocated true _ (h.append _) fun _ => subset_append_right _ _
      simp only [usesStmt, hthen, getD_some]
      exact hcond.append hboth fun _ h => h.append _
  | .return ret, h =>
    obtain ⟨hcheck, rfl⟩ := checkStmt_return h
    exact (agreeAll_usesExpr? (0 :: path) ret hm hcheck).stmtAgrees hm

theorem stmtsAgree (path : List Nat) (k : Nat) (statements : List Stmt)
    {scopes scopes' : Scopes τ} {visible : Visible τ} (hm : Matched scopes visible)
    (h : rules.checkStmts path scopes k statements = some scopes') :
    SameOuter scopes scopes' ∧ AgreeAll params visible (a.visitStmts path k statements)
      (usesStmts rules a path scopes visible k statements) := by
  match statements, h with
  | [], h =>
    cases h
    exact ⟨⟨hm.ne, rfl⟩, agreeAll_nil _ _ _⟩
  | statement :: statements, h =>
    obtain ⟨after, hafter, hrest⟩ := bind_eq_some_iff.1 h
    have hfirst := stmtAgrees (k :: path) statement hm hafter
    obtain ⟨hsame, huses⟩ := stmtsAgree path (k + 1) statements
      ⟨hfirst.sameOuter.1, hfirst.agree true⟩ hrest
    refine ⟨hfirst.sameOuter.trans hsame, ?_⟩
    simp only [usesStmts, hafter, getD_some]
    exact hfirst.uses.append huses fun _ h =>
      hfirst.allocated true _ (h.append _) fun _ => subset_append_right _ _

theorem agreeAll_usesExpr? (path : List Nat) (expression : Option Expr) {scopes : Scopes τ}
    {visible : Visible τ} (hm : Matched scopes visible)
    (h : rules.checkExpr? path scopes expression = true) :
    AgreeAll params visible (a.visitExpr? path expression)
      (usesExpr? rules a path scopes visible expression) := by
  match expression, h with
  | none, h => exact agreeAll_nil _ _ _
  | some expression, h => exact agreeAll_usesExpr path expression hm h

theorem stmt?Agrees (path : List Nat) (statement : Option Stmt) {scopes scopes' : Scopes τ}
    {visible : Visible τ} (hm : Matched scopes visible)
    (h : rules.checkStmt? path scopes statement = some scopes') :
    StmtAgrees params scopes scopes' visible
      (fun visited => bindStmt? rules visited path scopes visible statement)
      (a.visitStmt? path statement) (usesStmt? rules a path scopes visible statement) := by
  match statement, h with
  | none, h =>
    cases h
    exact (agreeAll_nil _ _ _).stmtAgrees hm
  | some statement, h => exact stmtAgrees path statement hm h

end

end

structure NamedFunction (τ : Type) where
  returnsNil : Bool
  params : List (Identifier × τ)
  body : Stmt

namespace NamedFunction

variable (rules : TypeRules τ) (a : Allocator) (file : List (Identifier × τ))
  (function : NamedFunction τ)

def scopes : Scopes τ :=
  Scopes.declareAll ([] :: Scopes.declareAll [[]] file) function.params

def fileDecls : List (Declaration τ) :=
  file.map fun decl => ⟨decl.1, none, decl.2⟩

def paramDecls : List (Declaration τ) :=
  function.params.mapIdx fun i param => ⟨param.1, some (.parameter i), param.2⟩

def visible : Visible τ :=
  Visible.declareAll (Visible.declareAll [] (fileDecls file)) function.paramDecls

def accepts : Bool :=
  (rules.checkStmt [] (function.scopes file) function.body).isSome

/-- The identifiers that are compiled in the function. -/
def uses : List (Use τ) :=
  usesStmt rules a [] (function.scopes file) (function.visible file) function.body []

def allocateFunc : FunctionInfo :=
  .allocateFunc function.returnsNil (function.params.map Prod.fst)

/-- The hidden parameter, the parameters, and the variables that are declared in the body, in the
order in which the generator comes to them. -/
def declarations : List LocalInfo :=
  function.allocateFunc.locals ++ declared (a.visitStmt [] function.body)

end NamedFunction

namespace Use

/-- The compiled identifier addresses the local of the innermost declaration of its name, and has
the type of that declaration. The frame is that at the start of the function. -/
def LexicallyScoped (rules : TypeRules τ) (frame : FunctionInfo) (u : Use τ) : Prop :=
  ∃ d ∈ u.visible.innermost u.name,
    (∃ slot ∈ d.slot,
      (u.before.foldl FunctionInfo.allocate frame).lookupLocal u.name = some slot) ∧
    rules.typeOf u.scopes u.name = some d.type

def FirstDeclared (declarations : List LocalInfo) (name : Identifier) (slot : LocalId) : Prop :=
  ∃ before after, declarations = before ++ ⟨name, slot⟩ :: after ∧ ∀ l ∈ before, l.name ≠ name

/-- No declaration of the name in the function comes before the innermost, and the outermost that
is visible has the same type. -/
def Unshadowed (declarations : List LocalInfo) (u : Use τ) : Prop :=
  ∃ d ∈ u.visible.innermost u.name,
    (∃ slot ∈ d.slot, FirstDeclared declarations u.name slot) ∧
    ∀ outer ∈ u.visible.outermost u.name, outer.type = d.type

theorem find?_eq_some_iff_firstDeclared {declarations : List LocalInfo} {name : Identifier}
    {slot : LocalId} : (declarations.find? fun l => l.name = name).map LocalInfo.id = some slot ↔
      FirstDeclared declarations name slot := by
  rw [map_eq_some_iff]
  constructor
  · rintro ⟨l, hfind, rfl⟩
    obtain ⟨hname, before, after, hlocals, hbef⟩ := find?_eq_some_iff_append.1 hfind
    obtain rfl : l.name = name := of_decide_eq_true hname
    exact ⟨before, after, hlocals, fun other hother => by simpa using hbef other hother⟩
  · rintro ⟨before, after, hlocals, hbef⟩
    refine ⟨⟨name, slot⟩, find?_eq_some_iff_append.2 ⟨decide_eq_true rfl, before, after,
      hlocals, fun other hother => ?_⟩, rfl⟩
    simpa using hbef other hother

instance (declarations : List LocalInfo) (name : Identifier) (slot : LocalId) :
    Decidable (FirstDeclared declarations name slot) :=
  decidable_of_iff _ find?_eq_some_iff_firstDeclared

instance [DecidableEq τ] (rules : TypeRules τ) (frame : FunctionInfo) (u : Use τ) :
    Decidable (u.LexicallyScoped rules frame) :=
  inferInstanceAs (Decidable (∃ d ∈ u.visible.innermost u.name, _))

instance [DecidableEq τ] (declarations : List LocalInfo) (u : Use τ) :
    Decidable (u.Unshadowed declarations) :=
  inferInstanceAs (Decidable (∃ d ∈ u.visible.innermost u.name, _))

/-- Temporaries have names of their own. -/
theorem lookupLocal_allocate {name : Identifier} (hname : name.take 3 ≠ FunctionInfo.text "tmp")
    (allocations : List Allocation) (frame : FunctionInfo) :
    (allocations.foldl FunctionInfo.allocate frame).lookupLocal name =
      ((frame.locals ++ declared allocations).find? fun l => l.name = name).map LocalInfo.id := by
  induction allocations generalizing frame with
  | nil => rw [declared, filterMap_nil, append_nil, foldl_nil, FunctionInfo.lookupLocal]
  | cons allocation allocations ih =>
    rw [foldl_cons, ih]
    obtain ⟨other, path⟩ | _ := allocation
    · simp [FunctionInfo.allocate, FunctionInfo.newLocal, declared, Allocation.declared?]
    · have htmp : FunctionInfo.text ("tmp" ++ toString (frame.numTemps + 1)) ≠ name := by
        rintro rfl
        apply hname
        rw [FunctionInfo.text, String.toList_append, map_append]
        exact take_left' rfl
      rw [FunctionInfo.allocate, FunctionInfo.newTemporary, FunctionInfo.newLocal, append_assoc,
        find?_append, singleton_append, find?_cons_of_neg (by simpa using htmp), find?_append]
      rfl

theorem outermost_isSome {visible : Visible τ} {name : Identifier} {d : Declaration τ}
    (h : visible.innermost name = some d) : ∃ outer, visible.outermost name = some outer := by
  rw [← isSome_iff_exists, Visible.outermost, find?_isSome]
  have hname := find?_some h
  exact ⟨d, mem_reverse.2 (mem_of_find?_eq_some h), hname⟩

theorem lookupLocal_iff {frame : FunctionInfo} {all : List Allocation} {u : Use τ}
    (h : u.Sound frame.locals all)
    (hnames : ∀ l ∈ frame.locals ++ declared all, l.name.take 3 ≠ FunctionInfo.text "tmp")
    {d : Declaration τ} (hd : u.visible.innermost u.name = some d) {slot : LocalId}
    (hslot : d.slot = some slot) :
    (u.before.foldl FunctionInfo.allocate frame).lookupLocal u.name = some slot ↔
      FirstDeclared (frame.locals ++ declared all) u.name slot := by
  have hfound := find?_some hd
  have hname : d.name = u.name := of_decide_eq_true hfound
  have hmem := h.allocated d (mem_of_find?_eq_some hd) slot hslot
  obtain ⟨later, rfl⟩ := h.within
  have hsplit : frame.locals ++ declared (u.before ++ later) =
      (frame.locals ++ declared u.before) ++ declared later := by
    rw [declared, filterMap_append, append_assoc]
    rfl
  rw [hsplit] at hnames ⊢
  have htmp := hnames _ (mem_append_left _ hmem)
  rw [hname] at hmem htmp
  -- The local of the declaration is allocated already, so what is allocated later is not found.
  have hsome : ((frame.locals ++ declared u.before).find? fun l => l.name = u.name).isSome = true :=
    find?_isSome.2 ⟨_, hmem, decide_eq_true rfl⟩
  have hall : (((frame.locals ++ declared u.before) ++ declared later).find?
        fun l => l.name = u.name) =
      (frame.locals ++ declared u.before).find? fun l => l.name = u.name := by
    rw [find?_append, or_of_isSome hsome]
  rw [lookupLocal_allocate htmp, ← find?_eq_some_iff_firstDeclared, hall]

theorem lexicallyScoped_iff_of_sound {rules : TypeRules τ} {frame : FunctionInfo}
    {all : List Allocation} {u : Use τ} (h : u.Sound frame.locals all)
    (hnames : ∀ l ∈ frame.locals ++ declared all, l.name.take 3 ≠ FunctionInfo.text "tmp") :
    u.LexicallyScoped rules frame ↔ u.Unshadowed (frame.locals ++ declared all) := by
  have htype {d : Declaration τ} (hd : u.visible.innermost u.name = some d) :
      rules.typeOf u.scopes u.name = some d.type ↔
        ∀ outer, u.visible.outermost u.name = some outer → outer.type = d.type := by
    obtain ⟨outer, houter⟩ := outermost_isSome hd
    rw [typeOf, h.agree u.name, houter]
    simp
  apply exists_congr
  intro d
  apply and_congr_right
  intro hd
  refine and_congr (exists_congr fun slot => and_congr_right fun hslot => ?_) (htype hd)
  exact lookupLocal_iff h hnames hd hslot

end Use

namespace NamedFunction

theorem matched_start (file : List (Identifier × τ)) (function : NamedFunction τ) :
    Matched (function.scopes file) (function.visible file) := by
  have hempty : Matched ([[]] : Scopes τ) [] := ⟨cons_ne_nil _ _, fun _ => rfl⟩
  have hfile := hempty.declareAll (fileDecls file)
  have hfileDecls : ((fileDecls file).map fun d => (d.name, d.type)) = file := by
    rw [fileDecls, List.map_map]
    exact map_id _
  have hparamDecls : (function.paramDecls.map fun d => (d.name, d.type)) = function.params := by
    apply ext_getElem?
    intro i
    rw [paramDecls, getElem?_map, getElem?_mapIdx, Option.map_map]
    exact Option.map_id'
  rw [hfileDecls] at hfile
  have hparams := hfile.opened.declareAll function.paramDecls
  rw [hparamDecls] at hparams
  exact hparams

theorem allocated_start (file : List (Identifier × τ)) (function : NamedFunction τ) :
    Allocated function.allocateFunc.locals (function.visible file) [] := by
  have hempty : Allocated function.allocateFunc.locals ([] : Visible τ) [] := by
    intro d hd
    cases hd
  have hfile : Allocated function.allocateFunc.locals
      (Visible.declareAll [] (fileDecls file)) [] := by
    apply hempty.declareAll
    intro d hd slot hslot
    obtain ⟨decl, -, rfl⟩ := List.mem_map.1 hd
    cases hslot
  apply hfile.declareAll
  intro d hd slot hslot
  obtain ⟨i, hi, rfl⟩ := mem_mapIdx.1 hd
  cases hslot
  apply mem_append_left
  apply mem_append_right
  rw [mem_mapIdx]
  exact ⟨i, by simpa using hi, by simp⟩

end NamedFunction

def twoTypes : TypeRules Bool where
  builtinType _ := none
  resolve _ typeOf
    | .identifier name => typeOf name
    | .floatLit _ => some true
    | _ => some false
  paramType _ _ _ _ := false
  allows _ _ _ := true

/-- No operands, and a temporary behind every expression. -/
def leafAllocator : Allocator where
  visited _ _ := []
  temporaries _ _ k := k

def distinctNames : NamedFunction Bool where
  returnsNil := true
  params := [(FunctionInfo.text "x", false)]
  body := .block [.block
      [.decl (.variable (FunctionInfo.text "y") none (some (.identifier (FunctionInfo.text "x")))),
        .assignment (.identifier (FunctionInfo.text "y")) (.identifier (FunctionInfo.text "x"))]]

def siblingBlocks : NamedFunction Bool where
  returnsNil := true
  params := []
  body := .block [.block [.decl (.variable (FunctionInfo.text "x") none (some (.intLit [])))],
      .block [.decl (.variable (FunctionInfo.text "x") none (some (.floatLit []))),
          .assignment (.identifier (FunctionInfo.text "x")) (.floatLit [])]]

end Terrier.Tpl
