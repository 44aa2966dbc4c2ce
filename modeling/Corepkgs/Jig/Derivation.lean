import Corepkgs.Jig.StorePath
import Corepkgs.Lib.Codes
import Corepkgs.Lib.Table
import Mathlib
/-!
# Derivations as ATerms

`DerivationToATerm` reads a derivation off a JSON value and writes it as the text the
daemon hashes.  Reading (`Derivation.read`) and writing (`Derivation.render`) are
separate here.

* `code_quote`, `code_list`: what is written can be cut off a text in one way only;
* `Derivation.render_injective`: equal texts, equal derivations.
-/

namespace Corepkgs.Jig.NixStore

open Lib List
open scoped Lib.Attrs

/-! ## JSON values -/

/-- A JSON document.  The members of an object are in the order of the text; of a number only
that it is one matters here. -/
inductive Json where
  | null
  | bool (b : Bool)
  | number (n : Int)
  | string (s : Bytes)
  | array (xs : List Json)
  | object (members : List (Bytes × Json))

/-- The `std::map` that members are put into, the last of a name winning. -/
def toMap {β : Type} (members : List (Bytes × β)) : Attrs Bytes β :=
  members.foldl (fun m e => Attrs.update m [e]) []

inductive Stop where
  /-- The empty string is returned. -/
  | rejected
  /-- A type error of the JSON library, which aborts without exceptions. -/
  | aborted
  deriving DecidableEq, Repr

namespace Json

def lookup (members : List (Bytes × Json)) (key : Bytes) : Option Json := (toMap members).get key

def items : Json → List (Bytes × Json)
  | .null => []
  | .object members => toMap members
  | .array xs => xs.zipIdx.map fun e => (decimal e.2, e.1)
  | j => [([], j)]

def getString : Json → Except Stop Bytes
  | .string s => .ok s
  | _ => .error .aborted

def getEach : List Json → Except Stop (List Bytes)
  | [] => .ok []
  | x :: xs => do
    let s ← getString x
    let rest ← getEach xs
    return s :: rest

def getStrings : Json → Except Stop (List Bytes)
  | .array xs => getEach xs
  | _ => .error .aborted

def stringAt (key : Bytes) : Json → Except Stop Bytes
  | .object members =>
    match lookup members key with
    | some v => getString v
    | none => .ok []
  | _ => .error .aborted

end Json

/-! ## Reading -/

structure Output where
  path : Bytes
  hashAlgo : Bytes
  hash : Bytes
  deriving DecidableEq, Repr

structure Derivation where
  outputs : Attrs Bytes Output
  inputDrvs : Attrs Bytes (List Bytes)
  inputSrcs : List Bytes
  system : Bytes
  builder : Bytes
  args : List Bytes
  env : Attrs Bytes Bytes
  deriving DecidableEq, Repr

def sorted (xs : List Bytes) : List Bytes := xs.insertionSort (· ≤ ·)

def eachItem {β γ : Type} (f : β → Except Stop γ) :
    List (Bytes × β) → Except Stop (List (Bytes × γ))
  | [] => .ok []
  | (key, v) :: rest => do
    let c ← f v
    let cs ← eachItem f rest
    return (key, c) :: cs

def readOutput (spec : Json) : Except Stop Output := do
  let path ← spec.stringAt (ascii "path")
  let hashAlgo ← spec.stringAt (ascii "hashAlgo")
  let hash ← spec.stringAt (ascii "hash")
  return ⟨path, hashAlgo, hash⟩

def readNames (outs : Json) : Except Stop (List Bytes) := do
  let names ← outs.getStrings
  return sorted names

def readVariable : Json → Except Stop Bytes
  | .string s => .ok s
  | _ => .error .rejected

namespace Derivation

def itemsOf (v : Option Json) : List (Bytes × Json) := (v.getD (.object [])).items

def stringsOf (v : Option Json) : Except Stop (List Bytes) := (v.map Json.getStrings).getD (.ok [])

def stringOf (v : Option Json) : Except Stop Bytes := (v.map Json.getString).getD (.ok [])

/-- The derivation whose members `get` finds, in the order in which the program reads them. -/
def readFrom (get : Bytes → Option Json) : Except Stop Derivation := do
  let inputDrvs ← eachItem readNames (itemsOf (get (ascii "inputDrvs")))
  let inputSrcs ← stringsOf (get (ascii "inputSrcs"))
  let env ← eachItem readVariable (itemsOf (get (ascii "env")))
  let args ← stringsOf (get (ascii "args"))
  let outputs ← eachItem readOutput (toMap (itemsOf (get (ascii "outputs"))))
  let system ← stringOf (get (ascii "system"))
  let builder ← stringOf (get (ascii "builder"))
  return ⟨outputs, toMap inputDrvs, sorted inputSrcs, system, builder, args, toMap env⟩

def read : Json → Except Stop Derivation
  | .object members => readFrom (Json.lookup members)
  | _ => .error .rejected

end Derivation

/-! ## Writing -/

/-- A character inside quotes. -/
def escaped (b : UInt8) : Bytes :=
  if b = 34 then [92, 34]
  else if b = 92 then [92, 92]
  else if b = 10 then [92, 110]
  else if b = 13 then [92, 114]
  else if b = 9 then [92, 116]
  else [b]

def quote (text : Bytes) : Bytes := 34 :: (text.flatMap escaped ++ [34])

def list {α : Type} (render : α → Bytes) (items : List α) : Bytes :=
  91 :: (separated 44 render true items ++ [93])

def renderOutput (e : Bytes × Output) : Bytes :=
  40 :: quote e.1 ++ 44 :: quote e.2.path ++ 44 :: quote e.2.hashAlgo ++ 44 ::
    quote e.2.hash ++ [41]

def renderInput (e : Bytes × List Bytes) : Bytes := 40 :: quote e.1 ++ 44 :: list quote e.2 ++ [41]

def renderVariable (e : Bytes × Bytes) : Bytes := 40 :: quote e.1 ++ 44 :: quote e.2 ++ [41]

def Derivation.render (d : Derivation) : Bytes :=
  ascii "Derive(" ++ list renderOutput d.outputs ++ 44 :: list renderInput d.inputDrvs ++
    44 :: list quote d.inputSrcs ++ 44 :: quote d.system ++ 44 :: quote d.builder ++
    44 :: list quote d.args ++ 44 :: list renderVariable d.env ++ [41]

/-- `DerivationToATerm`, from the parsed JSON on. -/
def derivationToATerm (drv : Json) : Except Stop Bytes :=
  (Derivation.read drv).map Derivation.render

/-! ## What is written can be read back -/

theorem code_escaped : Code escaped := by
  intro a b r r' h
  have hsplit : ∀ c, escaped c = [c] ∧ c ≠ 92 ∨ ∃ d, escaped c = [92, d] := by
    intro c
    unfold escaped
    split_ifs with h1 h2 h3 h4 h5
    · exact .inr ⟨_, rfl⟩
    · exact .inr ⟨_, rfl⟩
    · exact .inr ⟨_, rfl⟩
    · exact .inr ⟨_, rfl⟩
    · exact .inr ⟨_, rfl⟩
    · exact .inl ⟨rfl, h2⟩
  have hinj : ∀ a b : UInt8, escaped a = escaped b → a = b := by
    intro a b heq
    unfold escaped at heq
    split_ifs at heq <;> simp_all
  rcases hsplit a with ⟨ha, hane⟩ | ⟨d, ha⟩ <;> rcases hsplit b with ⟨hb, hbne⟩ | ⟨d', hb⟩
  · rw [ha, hb] at h
    exact ⟨(cons.inj h).1, (cons.inj h).2⟩
  · rw [ha, hb] at h
    exact absurd (cons.inj h).1 hane
  · rw [ha, hb] at h
    exact absurd (cons.inj h).1.symm hbne
  · rw [ha, hb] at h
    have htail := (cons.inj h).2
    obtain ⟨hd, hr⟩ := cons.inj htail
    exact ⟨hinj a b (by rw [ha, hb, hd]), hr⟩

theorem code_quote : Code quote := by
  have hstart : ∀ b, ∃ c rest, escaped b = c :: rest ∧ c ≠ 34 := by
    intro b
    unfold escaped
    split_ifs with h1 h2 h3 h4 h5
    · exact ⟨92, _, rfl, by decide⟩
    · exact ⟨92, _, rfl, by decide⟩
    · exact ⟨92, _, rfl, by decide⟩
    · exact ⟨92, _, rfl, by decide⟩
    · exact ⟨92, _, rfl, by decide⟩
    · exact ⟨b, _, rfl, h1⟩
  exact (code_escaped.many hstart).lead [34]

theorem code_list {α : Type} {render : α → Bytes} (h : Code render) {c : UInt8} (hc : c ≠ 93)
    (hstart : ∀ a, ∃ rest, render a = c :: rest) : Code (list render) := by
  refine (h.separated (by decide) fun a => ?_).lead [91]
  obtain ⟨rest, ha⟩ := hstart a
  exact ⟨c, rest, ha, hc⟩

theorem code_quotes : Code (list quote) := code_list code_quote (by decide) fun _ => ⟨_, rfl⟩

theorem code_renderVariable : Code renderVariable := by
  intro a b r r' h
  simp only [renderVariable, append_assoc, cons_append] at h
  obtain ⟨hname, h1⟩ := code_quote.behind h
  obtain ⟨hvalue, h2⟩ := code_quote.behind h1
  exact ⟨Prod.ext hname hvalue, (cons.inj h2).2⟩

theorem code_renderInput : Code renderInput := by
  intro a b r r' h
  simp only [renderInput, append_assoc, cons_append] at h
  obtain ⟨hpath, h1⟩ := code_quote.behind h
  obtain ⟨hnames, h2⟩ := code_quotes.behind h1
  exact ⟨Prod.ext hpath hnames, (cons.inj h2).2⟩

theorem code_renderOutput : Code renderOutput := by
  rintro ⟨name, path, hashAlgo, hash⟩ ⟨name', path', hashAlgo', hash'⟩ r r' h
  simp only [renderOutput, append_assoc, cons_append] at h
  obtain ⟨rfl, h1⟩ := code_quote.behind h
  obtain ⟨rfl, h2⟩ := code_quote.behind h1
  obtain ⟨rfl, h3⟩ := code_quote.behind h2
  obtain ⟨rfl, h4⟩ := code_quote.behind h3
  exact ⟨rfl, (cons.inj h4).2⟩

theorem Derivation.render_injective : Function.Injective Derivation.render := by
  have houtputs : Code (list renderOutput) :=
    code_list code_renderOutput (c := 40) (by decide) fun _ => ⟨_, rfl⟩
  have hinputs : Code (list renderInput) :=
    code_list code_renderInput (c := 40) (by decide) fun _ => ⟨_, rfl⟩
  have henv : Code (list renderVariable) :=
    code_list code_renderVariable (c := 40) (by decide) fun _ => ⟨_, rfl⟩
  rintro ⟨outputs, inputDrvs, inputSrcs, system, builder, args, env⟩
    ⟨outputs', inputDrvs', inputSrcs', system', builder', args', env'⟩ h
  simp only [Derivation.render, append_assoc, cons_append] at h
  obtain ⟨rfl, h1⟩ := houtputs (append_cancel_left h)
  obtain ⟨rfl, h2⟩ := hinputs.behind h1
  obtain ⟨rfl, h3⟩ := code_quotes.behind h2
  obtain ⟨rfl, h4⟩ := code_quote.behind h3
  obtain ⟨rfl, h5⟩ := code_quote.behind h4
  obtain ⟨rfl, h6⟩ := code_quotes.behind h5
  obtain ⟨rfl, -⟩ := henv.behind h6
  rfl

def exampleDrv (srcs names : List String) : List (Bytes × Json) :=
  [(ascii "name", .string (ascii "x")), (ascii "system", .string (ascii "x86_64-linux")),
   (ascii "builder", .string (ascii "/b")),
   (ascii "args", .array [.string (ascii "-c"), .string (ascii "echo \"hi\"\n")]),
   (ascii "env", .object [(ascii "out", .string (ascii "/o")), (ascii "b", .string (ascii "1")),
     (ascii "a", .string (ascii "2"))]),
   (ascii "inputSrcs", .array (srcs.map fun s => .string (ascii s))),
   (ascii "inputDrvs", .object [(ascii "/d.drv", .array (names.map fun s => .string (ascii s)))]),
   (ascii "outputs", .object
     [(ascii "out", .object [(ascii "hashAlgo", .string (ascii "r:sha256"))])])]

def exampleText : Bytes :=
  ascii "Derive([(\"out\",\"\",\"r:sha256\",\"\")],[(\"/d.drv\",[\"dev\",\"out\"])]," ++
    ascii "[\"/s1\",\"/s2\"],\"x86_64-linux\",\"/b\",[\"-c\",\"echo \\\"hi\\\"\\n\"]," ++
    ascii "[(\"a\",\"2\"),(\"b\",\"1\"),(\"out\",\"/o\")])"

theorem derivationToATerm_example :
    derivationToATerm (.object (exampleDrv ["/s2", "/s1"] ["out", "dev"])) = .ok exampleText := by
  decide +kernel

end Corepkgs.Jig.NixStore
