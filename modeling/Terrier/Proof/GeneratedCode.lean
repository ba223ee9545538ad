import Terrier.Execution.BytecodeGenerator

/-!
How generated code can be left. The ways out of the code of a statement are
read off the syntax tree; a terminating statement is not left at its end. A
function body that the semantic analysis hands on is terminating.
-/

namespace Terrier.Tpl

open ControlFlow Exits

open ControlFlow (Code Item Exits HasExits Closed Outcome)
open List Option

structure SoundCode (path : List Nat) (code : TplCode) (exits : Exits Bool) : Prop where
  exits : HasExits code exits
  closed : Closed code
  labels : ∀ label ∈ ControlFlow.labels code, path <:+ label.path

structure Part (path : List Nat) (kids : List Nat) (kinds : List LabelKind) (code : TplCode)
    (exits : Exits Bool) : Prop where
  exits : HasExits code exits
  closed : Closed code
  labels : ∀ label ∈ ControlFlow.labels code, (label.path = path ∧ label.kind ∈ kinds) ∨
    ∃ kid ∈ kids, kid :: path <:+ label.path

variable {path : List Nat} {code : TplCode} {exits : Exits Bool} {kid : Nat}

theorem Part.sound {kids : List Nat} {kinds : List LabelKind}
    (h : Part path kids kinds code exits) : SoundCode path code exits where
  exits := h.exits
  closed := h.closed
  labels label hlabel := by
    obtain ⟨rfl, -⟩ | ⟨kid, -, hkid⟩ := h.labels label hlabel
    · exact suffix_refl _
    · exact (suffix_cons kid path).trans hkid

theorem SoundCode.part (h : SoundCode (kid :: path) code exits) :
    Part path [kid] [] code exits where
  exits := h.exits
  closed := h.closed
  labels label hlabel := .inr ⟨kid, mem_singleton_self kid, h.labels label hlabel⟩

theorem not_suffix_of_cons : ¬ kid :: path <:+ path := by
  intro h
  have := h.length_le
  simp at this

theorem kid_eq_of_suffix {other : List Nat} {kid' : Nat} (h : kid :: path <:+ other)
    (h' : kid' :: path <:+ other) : kid = kid' := by
  have heq := suffix_of_suffix_length_le h h' (Nat.le_of_eq rfl)
  have := heq.eq_of_length rfl
  exact (List.cons.inj this).1

namespace Part

variable {path kids kids' : List Nat} {kinds kinds' : List LabelKind} {code code' : TplCode}
  {exits exits' : Exits Bool}

theorem disjoint (h : Part path kids kinds code exits) (h' : Part path kids' kinds' code' exits')
    (hkids : kids.Disjoint kids') (hkinds : kinds.Disjoint kinds') :
    (ControlFlow.labels code).Disjoint (ControlFlow.labels code') := by
  intro label hlabel hlabel'
  obtain ⟨hpath, hkind⟩ | ⟨kid, hkid, hpath⟩ := h.labels label hlabel
  · obtain ⟨-, hkind'⟩ | ⟨kid, -, hpath'⟩ := h'.labels label hlabel'
    · exact hkinds hkind hkind'
    · rw [hpath] at hpath'
      exact not_suffix_of_cons hpath'
  · obtain ⟨hpath', -⟩ | ⟨kid', hkid', hpath'⟩ := h'.labels label hlabel'
    · rw [hpath'] at hpath
      exact not_suffix_of_cons hpath
    · obtain rfl := kid_eq_of_suffix hpath hpath'
      exact hkids hkid hkid'

theorem not_mem (h : Part path kids kinds code exits) {kind : LabelKind} (hkind : kind ∉ kinds) :
    (⟨path, kind⟩ : Label) ∉ ControlFlow.labels code := by
  intro hlabel
  obtain ⟨-, hmem⟩ | ⟨kid, -, hpath⟩ := h.labels _ hlabel
  · exact hkind hmem
  · exact not_suffix_of_cons hpath

theorem nil : Part path [] [] [] Exits.through where
  exits := hasExits_nil
  closed := closed_nil
  labels _ h := by cases h

theorem labels_plain (instructions : List PlainEmission) :
    ControlFlow.labels (instructions.map .plain : TplCode) = [] := by
  induction instructions with
  | nil => rfl
  | cons instruction instructions ih => exact ih

theorem plain (path : List Nat) (instructions : List PlainEmission) :
    Part path [] [] (instructions.map .plain) Exits.through where
  exits := hasExits_plain instructions
  closed := by
    apply closed_of_labels
    exact forall_mem_map.2 fun instruction _ => rfl
  labels label h := by
    rw [labels_plain] at h
    cases h

theorem ret (result : Bool) : Part path [] [] [.ret result] (Exits.returns result) where
  exits := hasExits_ret result
  closed := by
    apply closed_of_labels
    intro item hitem
    obtain rfl := mem_singleton.1 hitem
    rfl
  labels _ h := by cases h

theorem bind (path : List Nat) (kind : LabelKind) :
    Part path [] [kind] [.bind ⟨path, kind⟩] Exits.through where
  exits := hasExits_bind _
  closed := by
    apply closed_of_labels
    intro item hitem
    obtain rfl := mem_singleton.1 hitem
    rfl
  labels label h := by
    obtain rfl := mem_singleton.1 h
    exact .inl ⟨rfl, mem_singleton_self kind⟩

section

variable (h : Part path kids kinds code exits)
include h

theorem append (h' : Part path kids' kinds' code' exits') (hkids : kids.Disjoint kids')
    (hkinds : kinds.Disjoint kinds') :
    Part path (kids ++ kids') (kinds ++ kinds') (code ++ code') (exits.seq exits') where
  exits := h.exits.append h'.exits (h.disjoint h' hkids hkinds)
  closed := h.closed.append h'.closed
  labels label hlabel := by
    rw [labels_append, mem_append] at hlabel
    obtain hlabel | hlabel := hlabel
    · obtain ⟨hpath, hkind⟩ | ⟨kid, hkid, hpath⟩ := h.labels label hlabel
      · exact .inl ⟨hpath, mem_append_left _ hkind⟩
      · exact .inr ⟨kid, mem_append_left _ hkid, hpath⟩
    · obtain ⟨hpath, hkind⟩ | ⟨kid, hkid, hpath⟩ := h'.labels label hlabel
      · exact .inl ⟨hpath, mem_append_right _ hkind⟩
      · exact .inr ⟨kid, mem_append_right _ hkid, hpath⟩

/-- Labels of the node that are added to those of a piece. -/
theorem labels_of {added : List LabelKind} {code' : TplCode}
    (hlabels : ∀ label ∈ ControlFlow.labels code',
      (∃ kind ∈ added, label = ⟨path, kind⟩) ∨ label ∈ ControlFlow.labels code) :
    ∀ label ∈ ControlFlow.labels code', (label.path = path ∧ label.kind ∈ added ++ kinds) ∨
      ∃ kid ∈ kids, kid :: path <:+ label.path := by
  intro label hlabel
  obtain ⟨kind, hkind, rfl⟩ | hlabel := hlabels label hlabel
  · exact .inl ⟨rfl, mem_append_left _ hkind⟩
  · obtain ⟨hpath, hkind⟩ | hkid := h.labels label hlabel
    · exact .inl ⟨hpath, mem_append_right _ hkind⟩
    · exact .inr hkid

theorem skip (test : Test) (kind : LabelKind) (hkind : kind ∉ kinds) :
    Part path kids ([kind] ++ kinds) (ControlFlow.skip test ⟨path, kind⟩ code)
      (Exits.through.either exits) where
  exits := h.exits.skip (h.not_mem hkind) test
  closed := h.closed.skip test _
  labels := h.labels_of fun label hlabel =>
    (mem_labels_skip.1 hlabel).imp_left fun heq => ⟨kind, by simp, heq⟩

theorem forever (kind : LabelKind) (hkind : kind ∉ kinds) :
    Part path kids ([kind] ++ kinds) (ControlFlow.forever ⟨path, kind⟩ code) exits.forever where
  exits := h.exits.forever (h.not_mem hkind)
  closed := h.closed.forever _
  labels := h.labels_of fun label hlabel =>
    (mem_labels_forever.1 hlabel).imp_left fun heq => ⟨kind, by simp, heq⟩

section Pair

variable (h' : Part path kids' kinds' code' exits') (hkids : kids.Disjoint kids')
  (hkinds : kinds.Disjoint kinds') (test : Test) (kind kind' : LabelKind)
include h' hkids hkinds

theorem fresh (hne : kind ≠ kind') (hkind : kind ∉ kinds ++ kinds')
    (hkind' : kind' ∉ kinds ++ kinds') :
    ControlFlow.Fresh (⟨path, kind⟩ : Label) ⟨path, kind'⟩ code code' := by
  rw [mem_append, not_or] at hkind hkind'
  constructor
  · exact fun heq => hne (Label.mk.inj heq).2
  · exact h.not_mem hkind.1
  · exact h.not_mem hkind'.1
  · exact h'.not_mem hkind.2
  · exact h'.not_mem hkind'.2
  · exact h.disjoint h' hkids hkinds

theorem labels_pair {both : TplCode} (hlabels : ∀ label ∈ ControlFlow.labels both,
      (label = ⟨path, kind⟩ ∨ label = ⟨path, kind'⟩) ∨ label ∈ ControlFlow.labels (code ++ code')) :
    ∀ label ∈ ControlFlow.labels both,
      (label.path = path ∧ label.kind ∈ [kind, kind'] ++ (kinds ++ kinds')) ∨
        ∃ kid ∈ kids ++ kids', kid :: path <:+ label.path := by
  apply (h.append h' hkids hkinds).labels_of
  intro label hlabel
  obtain (rfl | rfl) | hlabel := hlabels label hlabel
  · exact .inl ⟨kind, by simp, rfl⟩
  · exact .inl ⟨kind', by simp, rfl⟩
  · exact .inr hlabel

variable (hne : kind ≠ kind') (hkind : kind ∉ kinds ++ kinds')
  (hkind' : kind' ∉ kinds ++ kinds')
include hne hkind hkind'

theorem diamond : Part path (kids ++ kids') ([kind, kind'] ++ (kinds ++ kinds'))
    (ControlFlow.diamond test ⟨path, kind⟩ ⟨path, kind'⟩ code code') (exits.either exits') where
  exits := h.exits.diamond h'.exits (h.fresh h' hkids hkinds kind kind' hne hkind hkind') test
  closed := h.closed.diamond h'.closed test _ _
  labels := h.labels_pair h' hkids hkinds kind kind' fun _ => mem_labels_diamond.1

theorem loop : Part path (kids ++ kids') ([kind, kind'] ++ (kinds ++ kinds'))
    (ControlFlow.loop test ⟨path, kind⟩ ⟨path, kind'⟩ code code') (exits.loop exits') where
  exits := h.exits.loop h'.exits (h.fresh h' hkids hkinds kind kind' hne hkind hkind') test
  closed := h.closed.loop h'.closed test _ _
  labels := h.labels_pair h' hkids hkinds kind kind' fun _ => mem_labels_loop.1

end Pair

end

end Part

namespace Visitors

variable (v : Visitors)

def exitsOf (exits : List (Exits Bool)) : List Nat → Exits Bool
  | [] => Exits.through
  | operand :: operands => (exits.getD operand Exits.through).seq (exitsOf exits operands)

def nodeExits (path : List Nat) (expression : Expr) (exits : List (Exits Bool)) : Exits Bool :=
  exitsOf exits (v.visited path expression)

mutual

/-- The ways out of the code of an expression. It is left by a return only in the body of a
function literal. -/
def exprExits (path : List Nat) : Expr → Exits Bool
  | .binaryOp .or left right =>
    (exprExits (0 :: path) left).seq (Exits.through.either (exprExits (1 :: path) right))
  | .binaryOp .and left right =>
    (exprExits (0 :: path) left).seq (Exits.through.either (exprExits (1 :: path) right))
  | .binaryOp op left right =>
    v.nodeExits path (.binaryOp op left right)
      [exprExits (0 :: path) left, exprExits (1 :: path) right]
  | .comparisonOp op left right =>
    v.nodeExits path (.comparisonOp op left right)
      [exprExits (0 :: path) left, exprExits (1 :: path) right]
  | .call function arguments =>
    v.nodeExits path (.call function arguments) (exprsExits path 0 arguments)
  | .builtinCall function arguments =>
    v.nodeExits path (.builtinCall function arguments) (exprsExits path 0 arguments)
  | .index object index =>
    v.nodeExits path (.index object index)
      [exprExits (0 :: path) object, exprExits (1 :: path) index]
  | .member object member =>
    v.nodeExits path (.member object member) [exprExits (0 :: path) object]
  | .unaryOp op expression =>
    v.nodeExits path (.unaryOp op expression) [exprExits (0 :: path) expression]
  | .functionLit _ body => stmtExits (0 :: path) body
  | expression => v.nodeExits path expression []

def exprsExits (path : List Nat) : Nat → List Expr → List (Exits Bool)
  | _, [] => []
  | k, expression :: expressions =>
    exprExits (k :: path) expression :: exprsExits path (k + 1) expressions

def stmtExits (path : List Nat) : Stmt → Exits Bool
  | .assignment destination source =>
    (exprExits (0 :: path) destination).seq (exprExits (1 :: path) source)
  | .block statements => stmtsExits path 0 statements
  | .decl (.variable _ _ (some initial)) => exprExits (0 :: path) initial
  | .decl _ => Exits.through
  | .expression expression => exprExits (0 :: path) expression
  | .for init (some condition) next body =>
    (stmt?Exits (0 :: path) init).seq ((exprExits (1 :: path) condition).loop
        ((stmtExits (2 :: path) body).seq (stmt?Exits (3 :: path) next)))
  | .for init none next body =>
    (stmt?Exits (0 :: path) init).seq
      ((stmtExits (2 :: path) body).seq (stmt?Exits (3 :: path) next)).forever
  | .forIn .. => Exits.through
  | .if condition thenStmt none =>
    (exprExits (0 :: path) condition).seq (Exits.through.either (stmtExits (1 :: path) thenStmt))
  | .if condition thenStmt (some elseStmt) =>
    (exprExits (0 :: path) condition).seq
      ((stmtExits (1 :: path) thenStmt).either (stmtExits (2 :: path) elseStmt))
  | .return none => Exits.returns false
  | .return (some ret) => (exprExits (0 :: path) ret).seq (Exits.returns true)

def stmtsExits (path : List Nat) : Nat → List Stmt → Exits Bool
  | _, [] => Exits.through
  | k, statement :: statements =>
    (stmtExits (k :: path) statement).seq (stmtsExits path (k + 1) statements)

def stmt?Exits (path : List Nat) : Option Stmt → Exits Bool
  | none => Exits.through
  | some statement => stmtExits path statement

end

mutual

/-- The code of a terminating statement is not left at its end. -/
theorem stmtExits_fall (path : List Nat) : ∀ statement : Stmt,
    isTerminating statement = some true → v.stmtExits path statement .fall = false
  | .block statements, h => stmtsExits_fall path 0 statements h
  | .if condition thenStmt none, h => by cases h
  | .if condition thenStmt (some elseStmt), h => by
      have hboth : isTerminating thenStmt = some true ∧ isTerminating elseStmt = some true := by
        rw [isTerminating] at h
        obtain ⟨terminating, hthen, helse⟩ := bind_eq_some_iff.1 h
        cases terminating with
        | false => cases helse
        | true => exact ⟨hthen, helse⟩
      have hthen := stmtExits_fall (1 :: path) thenStmt hboth.1
      have helse := stmtExits_fall (2 :: path) elseStmt hboth.2
      simp [stmtExits, seq, either, hthen, helse]
  | .return none, _ => rfl
  | .return (some ret), _ => by simp [stmtExits, seq, returns]
  | .assignment .., h | .decl _, h | .expression _, h | .for .., h | .forIn .., h => by cases h

theorem stmtsExits_fall (path : List Nat) (k : Nat) : ∀ statements : List Stmt,
    lastIsTerminating statements = some true → v.stmtsExits path k statements .fall = false
  | [], h => by cases h
  | [statement], h => by
      have hlast := stmtExits_fall (k :: path) statement h
      simp [stmtsExits, hlast]
  | first :: statement :: statements, h => by
      have hrest := stmtsExits_fall path (k + 1) (statement :: statements) h
      rw [stmtsExits, seq, hrest, Bool.and_false]

end

def Operands (path : List Nat) (k : Nat) (codes : List TplCode) (exits : List (Exits Bool)) :
    Prop :=
  ∀ i, Part path [k + i] [] (codes.getD i []) (exits.getD i Exits.through)

theorem operands_nil (path : List Nat) (k : Nat) : Operands path k [] [] :=
  fun i =>
    { exits := hasExits_nil
      closed := closed_nil
      labels := fun _ h => by cases h }

variable {path : List Nat} {codes : List TplCode} {exits : List (Exits Bool)} {returnsNil : Bool}

theorem operands_cons {k : Nat} {code : TplCode} {exits : Exits Bool} {rest : List (Exits Bool)}
    (h : SoundCode (k :: path) code exits) (hrest : Operands path (k + 1) codes rest) :
    Operands path k (code :: codes) (exits :: rest) := by
  intro i
  cases i with
  | zero => exact h.part
  | succ i =>
    have hpart := hrest i
    rw [Nat.add_assoc, Nat.add_comm 1] at hpart
    exact hpart

theorem part_nodeFrom (h : Operands path 0 codes exits) (expression : Expr) {operands : List Nat}
    (hnodup : operands.Nodup) (k : Nat) :
    Part path operands [] (v.nodeFrom path expression codes k operands)
      (exitsOf exits operands) := by
  induction operands generalizing k with
  | nil => exact .plain _ _
  | cons operand operands ih =>
    rw [nodup_cons] at hnodup
    have hop := h operand
    rw [Nat.zero_add] at hop
    have hrest := hop.append (ih hnodup.2 (k + 1))
      (singleton_disjoint.2 hnodup.1) (disjoint_nil_left _)
    have hall := (Part.plain path (v.straight path expression k)).append hrest
      (disjoint_nil_left _) (disjoint_nil_left _)
    exact hall

theorem sound_node (h : Operands path 0 codes exits) (expression : Expr) :
    SoundCode path (v.node path expression codes) (v.nodeExits path expression exits) :=
  (v.part_nodeFrom h expression (v.visited_nodup path expression) 0).sound

section

variable {path : List Nat} {code first second third : TplCode} {exits x y z : Exits Bool}

theorem sound_logical (h : SoundCode (0 :: path) first x) (h' : SoundCode (1 :: path) second y)
    (jumpIf : Bool) (expression : Expr) :
    SoundCode path (v.logical jumpIf path expression first second)
      (x.seq (Exits.through.either y)) := by
  have hskip := h'.part.skip ⟨jumpIf, v.destination path expression⟩ .endLabel not_mem_nil
  have hright := hskip.append (Part.plain path (v.straight path expression 0))
    (disjoint_nil_right _) (disjoint_nil_right _)
  rw [seq_through] at hright
  exact (h.part.append hright (by simp) (by simp)).sound

theorem part_then (h : SoundCode (1 :: path) code exits) :
    Part path [1] [.thenLabel] (.bind ⟨path, .thenLabel⟩ :: code) exits := by
  have hpart := (Part.bind path .thenLabel).append h.part (by simp) (by simp)
  rw [through_seq] at hpart
  exact hpart

theorem sound_ifThen (h : SoundCode (0 :: path) first x) (h' : SoundCode (1 :: path) second y)
    (cond : LocalVar) :
    SoundCode path (first ++ ifThen path cond second) (x.seq (Exits.through.either y)) := by
  have hskip := (part_then h').skip ⟨false, cond⟩ .elseLabel (by simp)
  have hend := hskip.append (Part.bind path .endLabel) (by simp) (by simp)
  rw [seq_through] at hend
  exact (h.part.append hend (by simp) (by simp)).sound

theorem sound_ifThenElse (h : SoundCode (0 :: path) first x) (h' : SoundCode (1 :: path) second y)
    (h'' : SoundCode (2 :: path) third z) (cond : LocalVar) {terminating : Bool}
    (hterminating : terminating = true → y .fall = false) :
    SoundCode path (first ++ ifThenElse path cond terminating second third)
      (x.seq (y.either z)) := by
  cases terminating with
  | true =>
    have hskip := (part_then h').skip ⟨false, cond⟩ .elseLabel (by simp)
    have helse := h''.part.append (Part.bind path .endLabel) (by simp) (by simp)
    have hboth := hskip.append helse (by simp) (by simp)
    -- Without the jump over it, the second branch still runs after the test alone.
    have heither : (through.either y).seq (z.seq through) = y.either z := by
      funext o
      have hfall := hterminating rfl
      cases o <;> simp [seq, either, through, hfall]
    rw [heither] at hboth
    exact (h.part.append hboth (by simp) (by simp)).sound
  | false =>
    have hdiamond := (part_then h').diamond h''.part (by simp) (by simp) ⟨false, cond⟩
      .elseLabel .endLabel (by simp) (by simp) (by simp)
    exact (h.part.append hdiamond (by simp) (by simp)).sound

theorem part_iteration (h : SoundCode (2 :: path) first x) (h' : SoundCode (3 :: path) second y) :
    Part path [2, 3] [.continueLabel] (first ++ (.bind ⟨path, .continueLabel⟩ :: second))
      (x.seq y) := by
  have hnext := (Part.bind path .continueLabel).append h'.part (by simp) (by simp)
  rw [through_seq] at hnext
  exact h.part.append hnext (by simp) (by simp)

theorem sound_forLoop (hinit : SoundCode (0 :: path) code exits) (h : SoundCode (1 :: path) first x)
    (h' : SoundCode (2 :: path) second y) (h'' : SoundCode (3 :: path) third z) (cond : LocalVar) :
    SoundCode path (code ++ forLoop path cond first second third)
      (exits.seq (x.loop (y.seq z))) := by
  have hloop := h.part.loop (part_iteration h' h'') (by simp) (by simp) ⟨false, cond⟩
    .headerLabel .breakLabel (by simp) (by simp) (by simp)
  exact (hinit.part.append hloop (by simp) (by simp)).sound

theorem sound_forEver (hinit : SoundCode (0 :: path) code exits) (h : SoundCode (2 :: path) first x)
    (h' : SoundCode (3 :: path) second y) :
    SoundCode path (code ++ forEver path first second) (exits.seq (x.seq y).forever) := by
  have hloop := ((part_iteration h h').forever .headerLabel (by simp)).append
    (Part.bind path .breakLabel) (by simp) (by simp)
  rw [seq_through] at hloop
  exact (hinit.part.append hloop (by simp) (by simp)).sound

theorem sound_return (h : SoundCode (0 :: path) code exits) (instructions : List PlainEmission) :
    SoundCode path (code ++ (instructions.map .plain ++ [.ret true]))
      (exits.seq (Exits.returns true)) := by
  have hreturn := (Part.plain path instructions).append (Part.ret true) (by simp) (by simp)
  exact (h.part.append hreturn (by simp) (by simp)).sound

end

mutual

theorem sound_visitExpr (path : List Nat) : ∀ expression : Expr,
    SoundCode path (v.visitExpr path expression) (v.exprExits path expression)
  | .binaryOp op left right => by
      have hleft := sound_visitExpr (0 :: path) left
      have hright := sound_visitExpr (1 :: path) right
      have hnode := v.sound_node (operands_cons hleft (operands_cons hright (operands_nil path 2)))
        (.binaryOp op left right)
      cases op with
      | or => exact v.sound_logical hleft hright true _
      | and => exact v.sound_logical hleft hright false _
      | _ => exact hnode
  | .comparisonOp op left right =>
    v.sound_node (operands_cons (sound_visitExpr (0 :: path) left)
      (operands_cons (sound_visitExpr (1 :: path) right) (operands_nil path 2))) _
  | .call function arguments => v.sound_node (operands_visitExprs path 0 arguments) _
  | .builtinCall function arguments => v.sound_node (operands_visitExprs path 0 arguments) _
  | .index object index =>
    v.sound_node (operands_cons (sound_visitExpr (0 :: path) object)
      (operands_cons (sound_visitExpr (1 :: path) index) (operands_nil path 2))) _
  | .member object member =>
    v.sound_node (operands_cons (sound_visitExpr (0 :: path) object) (operands_nil path 1)) _
  | .unaryOp op expression =>
    v.sound_node (operands_cons (sound_visitExpr (0 :: path) expression) (operands_nil path 1)) _
  | .functionLit typeRepr body => (sound_visitStmt (0 :: path) body).part.sound
  | .bad | .identifier _ | .nilLit | .boolLit _ | .intLit _ | .floatLit _ | .stringLit _
  | .arrayType .. | .functionType .. | .mapType .. | .pointerType _ | .structType _ =>
    v.sound_node (operands_nil path 0) _

theorem operands_visitExprs (path : List Nat) (k : Nat) : ∀ expressions : List Expr,
    Operands path k (v.visitExprs path k expressions) (v.exprsExits path k expressions)
  | [] => operands_nil path k
  | expression :: expressions =>
    operands_cons (sound_visitExpr (k :: path) expression)
      (operands_visitExprs path (k + 1) expressions)

theorem sound_visitStmt (path : List Nat) : ∀ statement : Stmt,
    SoundCode path (v.visitStmt path statement) (v.stmtExits path statement)
  | .assignment destination source => by
      have hparts := (sound_visitExpr (0 :: path) destination).part.append
        (sound_visitExpr (1 :: path) source).part (by simp) (by simp)
      exact hparts.sound
  | .block statements => (part_visitStmts path 0 statements).sound
  | .decl (.variable _ _ (some initial)) => (sound_visitExpr (0 :: path) initial).part.sound
  | .decl (.variable _ _ none) | .decl (.struct ..) | .decl (.function ..) | .forIn .. =>
    Part.nil.sound
  | .expression expression => (sound_visitExpr (0 :: path) expression).part.sound
  | .for init (some condition) next body =>
    sound_forLoop (sound_visitStmt? (0 :: path) init) (sound_visitExpr (1 :: path) condition)
      (sound_visitStmt (2 :: path) body) (sound_visitStmt? (3 :: path) next) _
  | .for init none next body =>
    sound_forEver (sound_visitStmt? (0 :: path) init) (sound_visitStmt (2 :: path) body)
      (sound_visitStmt? (3 :: path) next)
  | .if condition thenStmt none =>
    sound_ifThen (sound_visitExpr (0 :: path) condition) (sound_visitStmt (1 :: path) thenStmt) _
  | .if condition thenStmt (some elseStmt) =>
    sound_ifThenElse (sound_visitExpr (0 :: path) condition)
      (sound_visitStmt (1 :: path) thenStmt) (sound_visitStmt (2 :: path) elseStmt) _
      fun h => v.stmtExits_fall (1 :: path) thenStmt (of_decide_eq_true h)
  | .return none => (Part.ret false).sound
  | .return (some ret) => sound_return (sound_visitExpr (0 :: path) ret) _

theorem part_visitStmts (path : List Nat) (k : Nat) : ∀ statements : List Stmt,
    Part path (List.range' k statements.length) [] (v.visitStmts path k statements)
      (v.stmtsExits path k statements)
  | [] => Part.nil
  | statement :: statements => by
      have hfirst := (sound_visitStmt (k :: path) statement).part
      have hrest := part_visitStmts path (k + 1) statements
      apply hfirst.append hrest
      · simp [mem_range'_1]
      · simp

theorem sound_visitStmt? (path : List Nat) : ∀ statement : Option Stmt,
    SoundCode path (v.visitStmt? path statement) (v.stmt?Exits path statement)
  | none => Part.nil.sound
  | some statement => sound_visitStmt path statement

end

theorem lastIsTerminating_append (statements : List Stmt) (ret : Option Expr) :
    lastIsTerminating (statements ++ [.return ret]) = some true := by
  induction statements with
  | nil => rfl
  | cons statement statements ih =>
    cases statements with
    | nil => rfl
    | cons next statements => exact ih

theorem endFunction_terminates {statements ended : List Stmt}
    (h : Sema.endFunction returnsNil statements = some ended) :
    lastIsTerminating ended = some true := by
  obtain ⟨terminating, hlast, h⟩ := bind_eq_some_iff.1 h
  cases terminating with
  | true =>
    cases h
    split at hlast
    · cases hlast
    · exact hlast
  | false =>
    cases returnsNil with
    | true =>
      cases h
      exact lastIsTerminating_append statements none
    | false => cases h

theorem visitFunction_fall {nilType : List Nat → Expr → Bool} {body accepted : Stmt}
    (h : Sema.visitFunction nilType path returnsNil body = some accepted) (path' : List Nat) :
    v.stmtExits path' accepted .fall = false := by
  cases body with
  | block statements =>
    obtain ⟨visited, -, h⟩ := bind_eq_some_iff.1 h
    obtain ⟨ended, hended, h⟩ := bind_eq_some_iff.1 h
    cases h
    exact v.stmtsExits_fall path' 0 ended (endFunction_terminates hended)
  | _ => cases h

end Visitors

end Terrier.Tpl
