import Mathlib
import Corepkgs.Nix.Overrides
/-!
# Applying an override tree

`applyVerbs`, `walk` and `applyOne` of `nix/overrides.nix`: the tree and the spec are walked
together, and at a verb node the field is edited.  Evaluation is strict here, so a tree is accepted
if none of the fields it names throws.
-/

namespace Corepkgs.Nix

open Lib Attrs Value List Option
open scoped Lib.Attrs

/-! ## The model -/

inductive Refusal
  | thrown (message : Bytes)
  /-- Nix's own complaint about a value of the wrong type -/
  | typeError (expected found : Bytes)
  deriving DecidableEq

structure Primops (α : Type) where
  /-- the characters of a string -/
  text : α → Name
  toString : Value α → Except Refusal (Value α)
  /-- `==` -/
  eq : Value α → Value α → Bool
  /-- the application of a function -/
  call : α → Value α → Except Refusal (Value α)
  /-- what `null` is made of -/
  null : α

structure OverrideContext (α : Type) where
  pkg : Name
  pkgs : Attrs Name (Value α)

variable {α : Type} (ops : Primops α) (ctx : OverrideContext α)

def complaintAt (path : List Name) : Bytes :=
  ascii "overrides: " ++ ctx.pkg ++ ascii "." ++ [46].intercalate path

def fail {β : Type} (path : List Name) (msg : Bytes) : Except Refusal β :=
  .error (.thrown (complaintAt ctx path ++ ascii ": " ++ msg))

def depFields : List Name := [ascii "dependencies", ascii "buildDependencies"]

def isDeps (path : List Name) : Bool := path.length == 1 && depFields.contains (path.headD [])

def pname (d : Value α) : Except Refusal (Value α) :=
  match d with
  | .attrs a =>
    match (get (ascii "pname") a).or (get (ascii "name") a) with
    | some v => .ok v
    | none => ops.toString d
  | d => ops.toString d

/-- In a dependency list a string names a package. -/
def resolve (path : List Name) (v : Value α) : Except Refusal (Value α) :=
  match v with
  | .other .string a =>
    if isDeps path then
      match ctx.pkgs.get (ops.text a) with
      | some p => .ok p
      | none => fail ctx path (ascii "no package named " ++ ops.text a)
    else .ok v
  | v => .ok v

def argList (path : List Name) (verb : Name) (v : Value α) : Except Refusal (List (Value α)) :=
  match v with
  | .list elems => elems.mapM (resolve ops ctx path)
  | v => fail ctx path (verb ++ ascii " takes a list, got a " ++ v.typeOf)

def argSet (path : List Name) (verb : Name) (v : Value α) :
    Except Refusal (Attrs Name (Value α)) :=
  match v with
  | .attrs a => .ok a
  | v => fail ctx path (verb ++ ascii " takes a set, got a " ++ v.typeOf)

def removesField (node : Attrs Name (Value α)) : Bool :=
  (node.get (ascii "remove")).any isTrue

/-- What `remove` lists, in a dependency list the packages' names. -/
def droppedBy (path : List Name) (node : Attrs Name (Value α)) :
    Except Refusal (List (Value α)) :=
  match node.get (ascii "remove") with
  | none => .ok []
  | some v =>
    if v.isTrue then .ok []
    else do
      let elems ← argList ops ctx path (ascii "remove") v
      elems.mapM fun r =>
        match r with
        | .other .string _ => .ok r
        | r => if isDeps path then pname ops r else .ok r

/-- What an element of a list is compared by. -/
def nameOf (path : List Name) (d : Value α) : Except Refusal (Value α) :=
  if isDeps path then pname ops d else .ok d

def elemOf (v : Value α) (vs : List (Value α)) : Bool := vs.any (ops.eq v)

def filterKept (path : List Name) (dropped : List (Value α)) :
    List (Value α) → Except Refusal (List (Value α))
  | [] => .ok []
  | d :: rest => do
      let name ← nameOf ops path d
      let kept ← filterKept path dropped rest
      return if elemOf ops name dropped then kept else d :: kept

def attrNamesOf : List (Value α) → Except Refusal (List Name)
  | [] => .ok []
  | .other .string a :: rest => (attrNamesOf rest).map (ops.text a :: ·)
  | v :: _ => .error (.typeError (ascii "string") v.typeOf)

def hasVerb (node : Attrs Name (Value α)) (verb : String) : Bool := (node.get (ascii verb)).isSome

/-- The value the other verbs edit: `set`, else the field, else what `merge` or `append` imply. -/
def startOf (path : List Name) (node : Attrs Name (Value α)) (old : Option (Value α)) :
    Except Refusal (Value α) :=
  match node.get (ascii "set"), old, removesField node with
  | some v, _, _ => if isDeps path then (argList ops ctx path (ascii "set") v).map .list else .ok v
  | none, some old, false => .ok old
  | none, old, _ =>
    if hasVerb node "merge" then .ok (.attrs [])
    else if hasVerb node "prepend" || hasVerb node "append" then .ok (.list [])
    else if hasVerb node "remove" then
      if old.isSome then .ok (.other .null ops.null)
        else fail ctx path (ascii "remove: no such field")
    else fail ctx path (ascii "no such field (use .set to create it)")

def drops (node : Attrs Name (Value α)) : Bool := hasVerb node "remove" && !removesField node

def afterRemove (path : List Name) (node : Attrs Name (Value α)) (dropped : List (Value α))
    (start : Value α) : Except Refusal (Value α) :=
  if drops node = false then .ok start
  else
    match start with
    | .list elems => (filterKept ops path dropped elems).map .list
    | .attrs a => (attrNamesOf ops dropped).map fun names => .attrs (removeAttrs a names)
    | v => fail ctx path (ascii "remove from a " ++ v.typeOf ++ ascii ", expected a list or set")

def afterMerge (path : List Name) (node : Attrs Name (Value α)) (dropped : List (Value α))
    (v : Value α) : Except Refusal (Value α) :=
  match node.get (ascii "merge") with
  | none => .ok v
  | some m =>
    match v with
    | .attrs a => do
        let added ← argSet ctx path (ascii "merge") m
        let names ← attrNamesOf ops dropped
        return .attrs (update a (added.removeAttrs names))
    | v => fail ctx path (ascii "merge into a " ++ v.typeOf ++ ascii ", expected a set")

def listVerb (path : List Name) (node : Attrs Name (Value α)) (verb : Name) :
    Except Refusal (List (Value α)) :=
  match node.get verb with
  | none => .ok []
  | some v => argList ops ctx path verb v

/-- `remove` filters what `prepend` and `append` add as well. -/
def afterLists (path : List Name) (node : Attrs Name (Value α)) (dropped : List (Value α))
    (v : Value α) : Except Refusal (Value α) :=
  if hasVerb node "prepend" || hasVerb node "append" then
    match v with
    | .list elems => do
        let front ← listVerb ops ctx path node (ascii "prepend")
        let back ← listVerb ops ctx path node (ascii "append")
        (filterKept ops path dropped (front ++ elems ++ back)).map .list
    | v => fail ctx path (ascii "append to a " ++ v.typeOf ++ ascii ", expected a list")
  else .ok v

def applyVerbs (path : List Name) (node : Attrs Name (Value α)) (old : Option (Value α)) :
    Except Refusal (Value α) := do
  let dropped ← droppedBy ops ctx path node
  let start ← startOf ops ctx path node old
  let v ← afterRemove ops ctx path node dropped start
  let v ← afterMerge ops ctx path node dropped v
  afterLists ops ctx path node dropped v

def isRemoveTrue : Value α → Bool
  | .attrs [(k, v)] => k == ascii "remove" && v.isTrue
  | _ => false

/-- A verb's name for something that is no node. -/
def misplaced (p : Name × Value α) : Bool := verbs.contains p.1 && !isVerbNode p.2

/-- `cur`: the set whose fields the tree edits. -/
def currentOf (path : List Name) (old : Option (Value α)) :
    Except Refusal (Attrs Name (Value α)) :=
  match old with
  | some (.attrs a) => .ok a
  | some v => fail ctx path (ascii "is a " ++ v.typeOf ++ ascii ", cannot descend")
  | none => .ok []

def removedBy (bindings : List (Name × Value α)) : List Name :=
  (bindings.filter fun p => isRemoveTrue p.2).map Prod.fst

mutual

def walk (path : List Name) (tree : Value α) (old : Option (Value α)) :
    Except Refusal (Value α) :=
  match tree with
  | .attrs bindings =>
    if isVerbNode (.attrs bindings) then applyVerbs ops ctx path bindings old
    else if (get (ascii "edit") bindings).isSome then
      .error (.thrown (complaintAt ctx path ++
        ascii ".edit: edit goes on the package, not a field"))
    else if bindings.any misplaced then
      fail ctx path (ascii "mixes verbs (" ++
        [32].intercalate ((bindings.filter misplaced).map Prod.fst) ++ ascii ") with fields (" ++
        [32].intercalate ((bindings.filter fun p => !misplaced p).map Prod.fst) ++ ascii ")")
    else do
      let cur ← currentOf ctx path old
      let edited ← walkFields path cur bindings
      return .attrs ((cur.update edited).removeAttrs (removedBy bindings))
  | v => fail ctx path (ascii "expected a verb (" ++ [32].intercalate verbs ++ ascii "), got a " ++
      v.typeOf)

/-- The fields of `cur` that the bindings of a tree name, edited. -/
def walkFields (path : List Name) (cur : Attrs Name (Value α)) :
    List (Name × Value α) → Except Refusal (List (Name × Value α))
  | [] => .ok []
  | (k, sub) :: rest => do
      let v ← walk (path ++ [k]) sub (cur.get k)
      let edited ← walkFields path cur rest
      return (k, v) :: edited

end

def applyOne (ops : Primops α) (pkgs : Attrs Name (Value α)) (name : Name)
    (node spec : Value α) : Except Refusal (Value α) :=
  match node with
  | .attrs bindings => do
      let walked := walk ops ⟨name, pkgs⟩ []
        (.attrs (removeAttrs bindings [ascii "edit"])) (some spec)
      match get (ascii "edit") bindings with
      | none => walked
      | some (.other .lambda f) => do
          let spec ← walked
          ops.call f spec
      | some v => .error (.thrown (ascii "overrides: " ++ name ++
          ascii ".edit: expected a function spec -> spec, got a " ++ v.typeOf))
  | v => .error (.thrown (ascii "overrides: " ++ name ++ ascii ": expected \x7b <field>" ++
      [226, 128, 166] ++ ascii " \x7d, got a " ++ v.typeOf))

/-! ## A verb node -/

/-- `d` is one of the elements that `remove` lists. -/
def Named (path : List Name) (dropped : List (Value α)) (d : Value α) : Prop :=
  ∃ name, nameOf ops path d = .ok name ∧ elemOf ops name dropped = true

variable {path : List Name}

theorem not_named_of_mem_filterKept {dropped elems kept : List (Value α)}
    (h : filterKept ops path dropped elems = .ok kept) :
    ∀ d ∈ kept, ¬Named ops path dropped d := by
  induction elems generalizing kept with
  | nil =>
    cases h
    simp
  | cons d elems ih =>
    rw [filterKept, bind_eq_ok] at h
    obtain ⟨name, hname, h⟩ := h
    obtain ⟨rest, hrest, h⟩ := bind_eq_ok.mp h
    cases h
    have hrestOk := ih hrest
    split_ifs with hin
    · exact hrestOk
    · refine forall_mem_cons.mpr ⟨?_, hrestOk⟩
      rintro ⟨name', hname', hin'⟩
      rw [hname, Except.ok.injEq] at hname'
      exact hin (hname' ▸ hin')

/-- What is not listed stays, in its order. -/
theorem mem_filterKept {dropped elems kept : List (Value α)}
    (h : filterKept ops path dropped elems = .ok kept) {d : Value α} (hd : d ∈ elems)
    (hnot : ¬Named ops path dropped d) : d ∈ kept := by
  induction elems generalizing kept with
  | nil => cases hd
  | cons e elems ih =>
    rw [filterKept, bind_eq_ok] at h
    obtain ⟨name, hname, h⟩ := h
    obtain ⟨rest, hrest, h⟩ := bind_eq_ok.mp h
    cases h
    split_ifs with hin
    · rcases mem_cons.mp hd with rfl | hd
      · exact absurd ⟨name, hname, hin⟩ hnot
      · exact ih hrest hd
    · rcases mem_cons.mp hd with rfl | hd
      · exact mem_cons_self
      · exact mem_cons_of_mem _ (ih hrest hd)

/-- The value has none of the elements, or none of the attributes, that `remove` lists. -/
def Without (path : List Name) (dropped : List (Value α)) (v : Value α) : Prop :=
  (∃ elems, v = .list elems ∧ ∀ d ∈ elems, ¬Named ops path dropped d) ∨
  ∃ a names, v = .attrs a ∧ attrNamesOf ops dropped = .ok names ∧
    ∀ k ∈ names, get k a = none

section

variable {ops ctx} {path : List Name} {node : Attrs Name (Value α)} {dropped : List (Value α)}
  {v w : Value α}

theorem without_afterRemove (hdrops : drops node = true)
    (h : afterRemove ops ctx path node dropped v = .ok w) : Without ops path dropped w := by
  unfold afterRemove at h
  rw [if_neg (by simp [hdrops])] at h
  cases v with
  | list elems =>
    obtain ⟨kept, hkept, rfl⟩ := map_eq_ok.mp h
    exact .inl ⟨kept, rfl, not_named_of_mem_filterKept ops hkept⟩
  | attrs a =>
    obtain ⟨names, hnames, rfl⟩ := map_eq_ok.mp h
    refine .inr ⟨_, names, rfl, hnames, fun k hk => ?_⟩
    rw [get_removeAttrs, if_pos hk]
  | bool _ | other _ _ => nomatch h

/-- What `merge` adds is filtered, and nothing goes. -/
theorem afterMerge_cases (h : afterMerge ops ctx path node dropped v = .ok w) :
    node.get (ascii "merge") = none ∧ w = v ∨
      ∃ a added names, node.get (ascii "merge") = some (.attrs added) ∧ v = .attrs a ∧
        attrNamesOf ops dropped = .ok names ∧
        w = .attrs (update a (removeAttrs added names)) := by
  unfold afterMerge at h
  cases hm : node.get (ascii "merge") with
  | none =>
    rw [hm] at h
    cases h
    exact .inl ⟨rfl, rfl⟩
  | some m =>
    rw [hm] at h
    cases v with
    | attrs a =>
      obtain ⟨added, hadded, h⟩ := bind_eq_ok.mp h
      obtain ⟨names, hnames, h⟩ := bind_eq_ok.mp h
      cases h
      cases m with
      | attrs m =>
        cases hadded
        exact .inr ⟨a, _, names, rfl, rfl, hnames, rfl⟩
      | list _ | bool _ | other _ _ => nomatch hadded
    | list _ | bool _ | other _ _ => nomatch h

theorem without_afterMerge (hv : Without ops path dropped v)
    (h : afterMerge ops ctx path node dropped v = .ok w) : Without ops path dropped w := by
  rcases afterMerge_cases h with ⟨-, rfl⟩ | ⟨a, added, names, -, rfl, hnames, rfl⟩
  · exact hv
  · rcases hv with ⟨elems, heq, -⟩ | ⟨a', names', heq, hnames', hnone⟩
    · nomatch heq
    · cases heq
      rw [hnames, Except.ok.injEq] at hnames'
      subst hnames'
      refine .inr ⟨_, names, rfl, hnames, fun k hk => ?_⟩
      rw [get_update, get_removeAttrs, if_pos hk, none_or]
      exact hnone k hk

/-- The lists are put around the value, less what `remove` lists. -/
theorem afterLists_cases (h : afterLists ops ctx path node dropped v = .ok w) :
    w = v ∨ ∃ elems front back kept, v = .list elems ∧
      filterKept ops path dropped (front ++ elems ++ back) = .ok kept ∧ w = .list kept := by
  unfold afterLists at h
  split_ifs at h
  · cases v with
    | list elems =>
      obtain ⟨front, -, h⟩ := bind_eq_ok.mp h
      obtain ⟨back, -, h⟩ := bind_eq_ok.mp h
      obtain ⟨kept, hkept, rfl⟩ := map_eq_ok.mp h
      exact .inr ⟨elems, front, back, kept, rfl, hkept, rfl⟩
    | attrs _ | bool _ | other _ _ => nomatch h
  · cases h
    exact .inl rfl

theorem without_afterLists (hv : Without ops path dropped v)
    (h : afterLists ops ctx path node dropped v = .ok w) : Without ops path dropped w := by
  rcases afterLists_cases h with rfl | ⟨elems, front, back, kept, -, hkept, rfl⟩
  · exact hv
  · exact .inl ⟨kept, rfl, not_named_of_mem_filterKept ops hkept⟩

end

structure Edited (path : List Name) (node : Attrs Name (Value α)) (old : Option (Value α))
    (dropped : List (Value α)) (v : Value α) : Prop where
  /-- what `remove` lists is gone, whatever else the node adds -/
  without : drops node = true → Without ops path dropped v
  /-- the other attributes stay, as they are if `merge` does not name them -/
  attrs_stay : ∀ a names k w, node.get (ascii "set") = none → removesField node = false →
    old = some (.attrs a) → attrNamesOf ops dropped = .ok names → get k a = some w →
    k ∉ names → ∃ b, v = .attrs b ∧ (get k b).isSome = true ∧
      ((∀ added, node.get (ascii "merge") = some (.attrs added) → get k added = none) →
        get k b = some w)
  /-- and so do the other elements -/
  elems_stay : ∀ elems d, node.get (ascii "set") = none → removesField node = false →
    old = some (.list elems) → d ∈ elems → ¬Named ops path dropped d →
    ∃ kept, v = .list kept ∧ d ∈ kept

variable {node : Attrs Name (Value α)}

theorem startOf_old {old : Value α}
    (hset : node.get (ascii "set") = none) (hremove : removesField node = false) :
    startOf ops ctx path node (some old) = .ok old := by
  unfold startOf
  rw [hset, hremove]

variable {old : Option (Value α)} {v : Value α}

theorem applyVerbs_edited (h : applyVerbs ops ctx path node old = .ok v) :
    ∃ dropped, droppedBy ops ctx path node = .ok dropped ∧
      Edited ops path node old dropped v := by
  obtain ⟨dropped, hdropped, h⟩ := bind_eq_ok.mp h
  obtain ⟨start, hstart, h⟩ := bind_eq_ok.mp h
  obtain ⟨v₁, h₁, h⟩ := bind_eq_ok.mp h
  obtain ⟨v₂, h₂, h₃⟩ := bind_eq_ok.mp h
  refine ⟨dropped, hdropped, ?_, ?_, ?_⟩
  · intro hdrops
    exact without_afterLists (without_afterMerge (without_afterRemove hdrops h₁) h₂) h₃
  · intro a names k w hset hremove hold hnames hk hnot
    rw [hold, startOf_old ops ctx hset hremove] at hstart
    cases hstart
    -- the attribute survives the removal
    have hremoved : ∃ a₁, v₁ = .attrs a₁ ∧ get k a₁ = some w := by
      unfold afterRemove at h₁
      split_ifs at h₁
      · cases h₁
        exact ⟨a, rfl, hk⟩
      · rw [hnames] at h₁
        cases h₁
        exact ⟨_, rfl, by rw [get_removeAttrs, if_neg hnot, hk]⟩
    obtain ⟨a₁, rfl, hk₁⟩ := hremoved
    rcases afterLists_cases h₃ with rfl | ⟨elems, front, back, kept, rfl, -, -⟩
    · rcases afterMerge_cases h₂ with ⟨-, rfl⟩ | ⟨a', added, names', hmerge, heq, hnames', rfl⟩
      · exact ⟨a₁, rfl, by rw [hk₁]; rfl, fun _ => hk₁⟩
      · cases heq
        rw [hnames, Except.ok.injEq] at hnames'
        subst hnames'
        refine ⟨_, rfl, ?_, ?_⟩
        · rw [get_update, hk₁]
          cases get k (removeAttrs added names) <;> rfl
        · intro hnone
          rw [get_update, get_removeAttrs, if_neg hnot, hnone added hmerge,
            none_or, hk₁]
    · rcases afterMerge_cases h₂ with ⟨-, heq⟩ | ⟨_, _, _, -, -, -, heq⟩ <;> nomatch heq
  · intro elems d hset hremove hold hd hnot
    rw [hold, startOf_old ops ctx hset hremove] at hstart
    cases hstart
    have hremoved : ∃ kept, v₁ = .list kept ∧ d ∈ kept := by
      unfold afterRemove at h₁
      split_ifs at h₁
      · cases h₁
        exact ⟨elems, rfl, hd⟩
      · obtain ⟨kept, hkept, rfl⟩ := map_eq_ok.mp h₁
        exact ⟨kept, rfl, mem_filterKept ops hkept hd hnot⟩
    obtain ⟨kept, rfl, hmem⟩ := hremoved
    rcases afterMerge_cases h₂ with ⟨-, rfl⟩ | ⟨_, _, _, -, heq, -, -⟩
    · rcases afterLists_cases h₃ with rfl | ⟨elems', front, back, kept', heq, hkept', rfl⟩
      · exact ⟨kept, rfl, hmem⟩
      · cases heq
        exact ⟨kept', rfl, mem_filterKept ops hkept' (by simp [hmem]) hnot⟩
    · nomatch heq

/-! ## The walk -/

def Value.lookup : List Name → Value α → Option (Value α)
  | [], v => some v
  | k :: p, .attrs a => (get k a).bind (lookup p)
  | _ :: _, _ => none

inductive Reach (α : Type)
  /-- to a verb node, with what is left of the path -/
  | verb (node : Attrs Name (Value α)) (rest : List Name)
  /-- to a node that is not one -/
  | inner
  /-- out of the tree -/
  | outside

def verbNode? : Value α → Option (Attrs Name (Value α))
  | .attrs a => if isVerbNode (.attrs a) then some a else none
  | _ => none

def reach : List Name → Value α → Reach α
  | [], tree =>
    match verbNode? tree with
    | some node => .verb node []
    | none => .inner
  | k :: p, tree =>
    match verbNode? tree with
    | some node => .verb node (k :: p)
    | none =>
      match tree with
      | .attrs bindings =>
        match get k bindings with
        | some sub => reach p sub
        | none => .outside
      | _ => .outside

theorem isVerbNode_of_isRemoveTrue (h : isRemoveTrue v = true) :
    isVerbNode v = true := by
  unfold isRemoveTrue at h
  split at h
  · rename_i k w
    have hk : k = ascii "remove" := by simpa using (Bool.and_eq_true_iff.mp h).1
    rw [hk]
    rfl
  · cases h

variable {bindings : List (Name × Value α)}

theorem walkFields_eq_ok {cur : Attrs Name (Value α)} {edited : List (Name × Value α)}
    (h : walkFields ops ctx path cur bindings = .ok edited) (k : Name) :
    (get k bindings = none → get k edited = none) ∧
      ∀ sub, get k bindings = some sub → ∃ v, get k edited = some v ∧
        walk ops ctx (path ++ [k]) sub (cur.get k) = .ok v := by
  induction bindings generalizing edited with
  | nil =>
    rw [walkFields] at h
    cases h
    simp
  | cons b bindings ih =>
    obtain ⟨q, sub⟩ := b
    rw [walkFields, bind_eq_ok] at h
    obtain ⟨v, hv, h⟩ := h
    obtain ⟨rest, hrest, h⟩ := bind_eq_ok.mp h
    cases h
    rw [get_cons, get_cons]
    by_cases hk : k = q
    · rw [if_pos hk, if_pos hk]
      refine ⟨nofun, fun sub' hsub => ⟨v, rfl, ?_⟩⟩
      cases hsub
      rw [hk, hv]
    · rw [if_neg hk, if_neg hk]
      exact ih hrest

theorem currentOf_eq_ok {cur : Attrs Name (Value α)}
    (h : currentOf ctx path old = .ok cur) (k : Name) (p : List Name) :
    (∀ v, old = some v → v = .attrs cur) ∧
      old.bind (lookup (k :: p)) = (cur.get k).bind (lookup p) := by
  match old, h with
  | none, h =>
    cases h
    exact ⟨nofun, rfl⟩
  | some (.attrs a), h =>
    cases h
    refine ⟨fun v hv => ?_, rfl⟩
    cases hv
    rfl

variable {tree : Value α}

/-- What a walk over a node that is no verb node gives at each name. -/
theorem walk_node {r : Value α} (htree : tree.canonical = true) (hnode : verbNode? tree = none)
    (h : walk ops ctx path tree old = .ok r) :
    ∃ bindings cur fields, tree = .attrs bindings ∧ currentOf ctx path old = .ok cur ∧
      r = .attrs fields ∧ ∀ k,
        (get k bindings = none → get k fields = cur.get k) ∧
        ∀ sub, get k bindings = some sub → sub.canonical = true ∧
          ∃ v, walk ops ctx (path ++ [k]) sub (cur.get k) = .ok v ∧
            get k fields = if isRemoveTrue sub then none else some v := by
  cases tree with
  | attrs bindings =>
    rw [walk, if_neg (by simpa [verbNode?] using hnode)] at h
    split_ifs at h
    · nomatch h
    rw [canonical_attrs_iff] at htree
    obtain ⟨cur, hcur, h⟩ := bind_eq_ok.mp h
    obtain ⟨edited, hedited, h⟩ := bind_eq_ok.mp h
    cases h
    refine ⟨bindings, cur, _, rfl, hcur, rfl, fun k => ?_⟩
    have hremoved : k ∈ removedBy bindings ↔
        ∃ sub, get k bindings = some sub ∧ isRemoveTrue sub = true := by
      unfold removedBy
      simp only [List.mem_map, List.mem_filter, Prod.exists, exists_and_right,
        exists_eq_right]
      constructor
      · rintro ⟨sub, hmem, htrue⟩
        exact ⟨sub, htree.1.get_of_mem hmem, htrue⟩
      · rintro ⟨sub, hget, htrue⟩
        exact ⟨sub, mem_of_get hget, htrue⟩
    obtain ⟨hout, hin⟩ := walkFields_eq_ok ops ctx hedited k
    rw [get_removeAttrs, get_update]
    constructor
    · intro hnone
      rw [if_neg (by rw [hremoved, hnone]; simp), hout hnone, none_or]
    · intro sub hsub
      obtain ⟨v, hv, hwalk⟩ := hin sub hsub
      refine ⟨htree.2 k sub hsub, v, hwalk, ?_⟩
      have hiff : k ∈ removedBy bindings ↔ isRemoveTrue sub = true := by
        rw [hremoved, hsub]
        simp
      rw [hv, some_or]
      by_cases htrue : isRemoveTrue sub = true
      · rw [if_pos (hiff.mpr htrue), if_pos htrue]
      · rw [if_neg (mt hiff.mp htrue), if_neg htrue]
  | list _ =>
    rw [walk] at h
    nomatch h
    nofun
  | bool _ =>
    rw [walk] at h
    nomatch h
    nofun
  | other _ _ =>
    rw [walk] at h
    nomatch h
    nofun

theorem verbNode?_eq_some :
    verbNode? tree = some node ↔ tree = .attrs node ∧ isVerbNode tree = true := by
  cases tree with
  | attrs a =>
    by_cases ha : isVerbNode (.attrs a) = true
    · simp only [verbNode?, if_pos ha, some.injEq, attrs.injEq]
      exact ⟨fun h => ⟨h, ha⟩, fun h => h.1⟩
    · simp only [verbNode?, if_neg ha]
      exact ⟨nofun, fun h => absurd h.2 ha⟩
  | list _ | bool _ | other _ _ => simp [verbNode?]

theorem not_isRemoveTrue (h : verbNode? tree = none) :
    isRemoveTrue tree = false := by
  rw [Bool.eq_false_iff]
  intro htrue
  have hverb := isVerbNode_of_isRemoveTrue htrue
  cases tree with
  | attrs a => simp [verbNode?, hverb] at h
  | list _ | bool _ | other _ _ => nomatch htrue

def Outcome (path p : List Name) (tree : Value α) (old : Option (Value α)) (r : Option (Value α)) :
    Prop :=
  match reach p tree with
  | .outside => r = old.bind (lookup p)
  | .inner => (∃ a, r = some (.attrs a)) ∧
      ∀ v, old.bind (lookup p) = some v → ∃ a, v = .attrs a
  | .verb node [] => ∃ v, applyVerbs ops ctx (path ++ p) node (old.bind (lookup p)) = .ok v ∧
      r = if p ≠ [] ∧ isRemoveTrue (.attrs node) = true then none else some v
  | .verb _ (_ :: _) => True

section

variable {ops ctx} {p : List Name}

theorem reach_of_verbNode (h : verbNode? tree = some node) : reach p tree = .verb node p := by
  obtain ⟨rfl, -⟩ := verbNode?_eq_some.mp h
  cases p <;> rw [reach, h]

theorem reach_cons {k : Name} (h : verbNode? (.attrs bindings) = none) :
    reach (k :: p) (.attrs bindings) =
      match get k bindings with
      | some sub => reach p sub
      | none => .outside := by
  rw [reach, h]

/-- One step of a path into a node that is no verb node. -/
theorem outcome_cons {path : List Name} {k : Name}
    (hnode : verbNode? (.attrs bindings) = none) {sub : Value α}
    (hsub : get k bindings = some sub) {field : Option (Value α)}
    (hold : old.bind (lookup (k :: p)) = field.bind (lookup p))
    (h : Outcome ops ctx (path ++ [k]) p sub field (v.lookup p)) :
    Outcome ops ctx path (k :: p) (.attrs bindings) old
      ((if isRemoveTrue sub then none else some v).bind (lookup p)) := by
  have hreach : reach (k :: p) (.attrs bindings) = reach p sub := by rw [reach_cons hnode, hsub]
  unfold Outcome at h ⊢
  rw [hreach, hold]
  cases hverb : verbNode? sub with
  | none =>
    rw [not_isRemoveTrue hverb, if_neg (by simp), bind_some]
    have hp : ∀ node rest, reach p sub = .verb node rest → p ≠ [] := by
      rintro node rest h rfl
      rw [reach, hverb] at h
      cases h
    cases hp' : reach p sub with
    | outside => rwa [hp'] at h
    | inner => rwa [hp'] at h
    | verb node rest =>
      rw [hp'] at h
      cases rest with
      | cons _ _ => trivial
      | nil =>
        obtain ⟨w, hw, hlookup⟩ := h
        rw [append_assoc, singleton_append] at hw
        refine ⟨w, hw, ?_⟩
        rw [hlookup]
        simp [hp node [] hp']
  | some node =>
    rw [reach_of_verbNode hverb] at h ⊢
    cases p with
    | cons _ _ => trivial
    | nil =>
      obtain ⟨rfl, -⟩ := verbNode?_eq_some.mp hverb
      obtain ⟨w, hw, hlookup⟩ := h
      refine ⟨w, by rwa [append_nil] at hw, ?_⟩
      have hvw : v = w := by simpa [Value.lookup] using hlookup
      by_cases htrue : isRemoveTrue (.attrs node) = true
      · simp [htrue]
      · simp [htrue, Value.lookup, hvw]

theorem walk_outcome {path : List Name} {r : Value α}
    (htree : tree.canonical = true) (h : walk ops ctx path tree old = .ok r) :
    Outcome ops ctx path p tree old (r.lookup p) := by
  induction p generalizing path tree old r with
  | nil =>
    have hold : old.bind (lookup []) = old := by cases old <;> rfl
    cases hnode : verbNode? tree with
    | some node =>
      obtain ⟨rfl, hverb⟩ := verbNode?_eq_some.mp hnode
      rw [walk, if_pos hverb] at h
      unfold Outcome
      rw [reach_of_verbNode hnode]
      refine ⟨r, ?_, by simp [Value.lookup]⟩
      rw [List.append_nil, hold, h]
    | none =>
      obtain ⟨bindings, cur, fields, -, hcur, rfl, -⟩ := walk_node ops ctx htree hnode h
      unfold Outcome
      rw [reach, hnode]
      refine ⟨⟨fields, rfl⟩, fun v hv => ?_⟩
      rw [hold] at hv
      exact ⟨cur, (currentOf_eq_ok ctx hcur [] []).1 v hv⟩
  | cons k p ih =>
    cases hnode : verbNode? tree with
    | some node =>
      unfold Outcome
      rw [reach_of_verbNode hnode]
      trivial
    | none =>
      obtain ⟨bindings, cur, fields, rfl, hcur, rfl, hfields⟩ := walk_node ops ctx htree hnode h
      obtain ⟨hout, hin⟩ := hfields k
      obtain ⟨-, hold⟩ := currentOf_eq_ok ctx hcur k p
      rw [Value.lookup]
      cases hk : get k bindings with
      | none =>
        unfold Outcome
        rw [reach_cons hnode, hk, hold, hout hk]
      | some sub =>
        obtain ⟨hsub, v, hv, hfield⟩ := hin sub hk
        rw [hfield]
        exact outcome_cons hnode hk hold (ih hsub hv)

end

/-! ## The package -/

theorem canonical_removeAttrs {a : Attrs Name (Value α)} (names : List Name)
    (h : (attrs a).canonical = true) :
    (attrs (removeAttrs a names)).canonical = true := by
  rw [canonical_attrs_iff] at h ⊢
  refine ⟨?_, fun name v hget => ?_⟩
  · exact h.1.sublist (filter_sublist.map _)
  · rw [get_removeAttrs] at hget
    split_ifs at hget
    exact h.2 name v hget

def fieldsOf (tree : Tree α) : Value α := .attrs (removeAttrs tree.bindings [ascii "edit"])

/-- Strings are their own text, and functions give the empty set. -/
def plainOps : Primops Name where
  text := id
  toString := .ok
  eq
    | .other .string a, .other .string b => a == b
    | _, _ => false
  call _ _ := .ok (.attrs [])
  null := []

def flagsTree : Tree Name where
  bindings := [(ascii "flags", .attrs [
    (ascii "append", .list [.other .string (ascii "b"), .other .string (ascii "c")]),
    (ascii "remove", .list [.other .string (ascii "a"), .other .string (ascii "c")])])]
  canonical := by decide

def flagsSpec : Value Name :=
  .attrs [(ascii "flags", .list [.other .string (ascii "a")]),
    (ascii "name", .other .string (ascii "jq"))]

end Corepkgs.Nix
