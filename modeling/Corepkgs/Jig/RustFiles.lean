import Corepkgs.Jig.CcMode
import Corepkgs.Lib.Swap
/-!
# The outputs of a crate

`PackFiles` and `UnpackFiles` of `rustc_mode.cc`: what rustc wrote is kept as one
blob, in which `@` stands for the value of `-C extra-filename`, and written again
under another value.

* `writeAll` — what unpacking a packed list comes to, entry by entry;
* `unpack_pack_iff` — when the files get the names rustc would give them.
-/

namespace Corepkgs.Jig.RustcMode

open Lib List Text

structure File where
  data : Bytes
  /-- The permission bits. -/
  mode : Nat
  deriving DecidableEq

/-- What a process can read, each file with its permission bits and a size that is a `size_t`. -/
structure Host where
  readFile : Bytes → Option File
  perms : ∀ {path file}, readFile path = some file → file.mode < 512
  size : ∀ {path file}, readFile path = some file → file.data.length < 2 ^ 64

/-- What works where files are written. -/
structure Disk where
  write : Bytes → Bool
  chmod : Bytes → Bool
  /-- The permission bits of a file that was just written. -/
  fresh : Bytes → Nat

def replaceAll (text pat new : Bytes) : Bytes :=
  if pat = [] then text else Text.replaceAll pat new text

/-! ## `PackFiles` -/

def entryText (name : Bytes) (file : File) : Bytes :=
  name ++ 32 :: (numeral 8 file.mode ++ 32 :: (decimal file.data.length ++ 10 :: file.data))

def packed (host : Host) (paths : List Bytes) (stem : Bytes) : List (Bytes × File) :=
  paths.filterMap fun path =>
    (host.readFile path).map fun file => (replaceAll (fileName path) stem (ascii "@"), file)

def packFiles (host : Host) (paths : List Bytes) (stem : Bytes) : Bytes :=
  (packed host paths stem).flatMap fun e => entryText e.1 e.2

/-! ## `UnpackFiles` -/

structure Head where
  name : Bytes
  mode : Nat
  size : Nat

def parseHead (line : Bytes) : Option Head :=
  match split line 32 with
  | [name, mode, size] =>
    match parseUint 8 mode, parseUint 10 size with
    | some mode, some size => some ⟨name, mode, size⟩
    | _, _ => none
  | _ => none

def readEntry (blob : Bytes) : Option ((Bytes × File) × Bytes) :=
  match blob.idxOf? 10 with
  | none => none
  | some newline =>
    match parseHead (blob.take newline) with
    | none => none
    | some head =>
      if blob.length - (newline + 1) < head.size then none
      else
        some ((head.name, ⟨(blob.drop (newline + 1)).take head.size, head.mode % 512⟩),
          blob.drop (newline + 1 + head.size))

/-- `WriteFile` and `fs::permissions`, whose error is ignored. -/
def Disk.place (disk : Disk) (out : Bytes) (file : File) : Option (Bytes × File) :=
  if disk.write out then
    some (out, if disk.chmod out then file else ⟨file.data, disk.fresh out⟩)
  else none

def target (dir stem name : Bytes) : Bytes := joinPath dir (replaceAll name (ascii "@") stem)

section

variable (disk : Disk) (dir stem : Bytes)

/-- The loop: whether it gets to the end, and what it writes. -/
def unpackFrom : Nat → Bytes → Bool × List (Bytes × File)
  | 0, _ => (true, [])
  | fuel + 1, blob =>
    if blob = [] then (true, [])
    else
      match readEntry blob with
      | none => (false, [])
      | some (entry, rest) =>
        match disk.place (target dir stem entry.1) entry.2 with
        | none => (false, [])
        | some written => ((unpackFrom fuel rest).1, written :: (unpackFrom fuel rest).2)

/-- Every round takes a line off the blob at least. -/
def unpackFiles (blob : Bytes) : Bool × List (Bytes × File) :=
  unpackFrom disk dir stem blob.length blob

end

/-! ## One entry -/

def word (text : Bytes) : Option Bytes :=
  match split text 32 with
  | [w] => some w
  | _ => none

variable (text : Bytes)

theorem split_append_blank (rest : Bytes) :
    split (text ++ 32 :: rest) 32 = split text 32 ++ split rest 32 := by
  rw [split, pieces, splitOn_append_cons_self, filter_append]
  rfl

theorem split_word {text : Bytes} (hne : text ≠ []) (h : 32 ∉ text) : split text 32 = [text] := by
  rw [split, pieces, splitOn_eq_singleton h]
  simp [hne]

theorem word_of_notMem {text : Bytes} (hne : text ≠ []) (h : 32 ∉ text) :
    word text = some text := by
  rw [word, split_word hne h]

theorem notMem_numeral {base n : Nat} (hbase : 1 < base) (hten : base ≤ 10) {b : UInt8}
    (hb : b.toNat < 48) : b ∉ numeral base n := by
  intro h
  have hdigit := isDigit_of_mem_numeral hbase hten h
  simp only [isDigit, Bool.and_eq_true, decide_eq_true_eq] at hdigit
  omega

theorem parseHead_eq {file : File} (hmode : file.mode < 512) (hsize : file.data.length < 2 ^ 64)
    (name : Bytes) :
    parseHead (name ++ 32 :: (numeral 8 file.mode ++ 32 :: decimal file.data.length)) =
      (word name).map fun w => ⟨w, file.mode, file.data.length⟩ := by
  have hm := split_word (numeral_ne_nil (show 1 < 8 by decide) (by decide) file.mode)
    (notMem_numeral (by decide) (by decide) (show (32 : UInt8).toNat < 48 by decide))
  have hs := split_word (numeral_ne_nil (show 1 < 10 by decide) (by decide) file.data.length)
    (notMem_numeral (by decide) (by decide) (show (32 : UInt8).toNat < 48 by decide))
  rw [numeral_ten] at hs
  have hmode' : parseUint 8 (numeral 8 file.mode) = some file.mode :=
    parseUint_numeral (by decide) (by decide) (by omega)
  have hsize' : parseUint 10 (decimal file.data.length) = some file.data.length :=
    parseUint_numeral (by decide) (by decide) hsize
  rw [parseHead, split_append_blank, split_append_blank, hm, hs, word]
  rcases split name 32 with _ | ⟨w, _ | ⟨w', _ | ⟨w'', ws⟩⟩⟩
  · rfl
  · simp [hmode', hsize']
  · rfl
  · cases ws <;> rfl

theorem readEntry_entryText {file : File} (hmode : file.mode < 512)
    (hsize : file.data.length < 2 ^ 64) {name : Bytes} (hname : 10 ∉ name) (rest : Bytes) :
    readEntry (entryText name file ++ rest) = (word name).map fun w => ((w, file), rest) := by
  have hline : 10 ∉ name ++ 32 :: (numeral 8 file.mode ++ 32 :: decimal file.data.length) := by
    have h8 : (10 : UInt8) ∉ numeral 8 file.mode :=
      notMem_numeral (by decide) (by decide) (by decide)
    have h10 : (10 : UInt8) ∉ decimal file.data.length :=
      numeral_ten file.data.length ▸ notMem_numeral (by decide) (by decide) (by decide)
    simp [hname, h8, h10]
  have htext : entryText name file ++ rest =
      (name ++ 32 :: (numeral 8 file.mode ++ 32 :: decimal file.data.length)) ++
        10 :: (file.data ++ rest) := by
    simp [entryText]
  generalize hhead : name ++ 32 :: (numeral 8 file.mode ++ 32 :: decimal file.data.length) =
    line at *
  rw [readEntry, htext, idxOf?_append_cons hline]
  simp only [take_left]
  rw [← hhead, parseHead_eq hmode hsize, hhead]
  cases word name with
  | none => rfl
  | some w =>
    have hfits : ¬(line ++ 10 :: (file.data ++ rest)).length - (line.length + 1) <
        file.data.length := by
      simp only [length_append, length_cons]
      omega
    have hdrop : (line ++ 10 :: (file.data ++ rest)).drop (line.length + 1) =
      file.data ++ rest := by
      rw [drop_append, drop_of_length_le (by omega)]
      simp
    have hrest : (line ++ 10 :: (file.data ++ rest)).drop (line.length + 1 + file.data.length) =
        rest := by
      rw [← drop_drop, hdrop, drop_left]
    simp only [Option.map_some, if_neg hfits, hdrop, hrest, take_left,
      Nat.mod_eq_of_lt hmode]

/-! ## A packed list -/

section

variable (disk : Disk) (dir stem : Bytes)

def writeAll : List (Bytes × File) → Bool × List (Bytes × File)
  | [] => (true, [])
  | e :: es =>
    match (word e.1).bind fun name => disk.place (target dir stem name) e.2 with
    | none => (false, [])
    | some written => ((writeAll es).1, written :: (writeAll es).2)

def Packed (e : Bytes × File) : Prop := 10 ∉ e.1 ∧ e.2.mode < 512 ∧ e.2.data.length < 2 ^ 64

theorem entryText_ne_nil (name : Bytes) (file : File) : entryText name file ≠ [] := by
  simp [entryText]

variable {es : List (Bytes × File)}

theorem unpackFrom_entries (hes : ∀ e ∈ es, Packed e) {fuel : Nat}
    (hfuel : (es.flatMap fun e => entryText e.1 e.2).length ≤ fuel) :
    unpackFrom disk dir stem fuel (es.flatMap fun e => entryText e.1 e.2) =
      writeAll disk dir stem es := by
  induction es generalizing fuel with
  | nil => cases fuel <;> rfl
  | cons e es ih =>
    obtain ⟨hname, hmode, hsize⟩ := hes e mem_cons_self
    have hpos := length_pos_iff.mpr (entryText_ne_nil e.1 e.2)
    rw [flatMap_cons, length_append] at hfuel
    cases fuel with
    | zero => omega
    | succ fuel =>
      have hrest := ih (fun e he => hes e (mem_cons_of_mem _ he)) (show _ ≤ fuel by omega)
      have hne : entryText e.1 e.2 ++ es.flatMap (fun e => entryText e.1 e.2) ≠ [] :=
        append_ne_nil_of_left_ne_nil (entryText_ne_nil e.1 e.2) _
      rw [flatMap_cons, unpackFrom, if_neg hne, readEntry_entryText hmode hsize hname,
        writeAll]
      cases word e.1 with
      | none => rfl
      | some name =>
        simp only [Option.map_some, Option.bind_some, hrest]

theorem writeAll_of_words (hwords : ∀ e ∈ es, word e.1 = some e.1)
    (hdisk : ∀ path, disk.write path = true ∧ disk.chmod path = true) :
    writeAll disk dir stem es = (true, es.map fun e => (target dir stem e.1, e.2)) := by
  induction es with
  | nil => rfl
  | cons e es ih =>
    have hplace : disk.place (target dir stem e.1) e.2 = some (target dir stem e.1, e.2) := by
      rw [Disk.place, if_pos (hdisk _).1, if_pos (hdisk _).2]
    rw [writeAll, hwords e mem_cons_self, Option.bind_some, hplace,
      ih fun e he => hwords e (mem_cons_of_mem _ he)]
    rfl

theorem unpackFiles_packed (hes : ∀ e ∈ es, Packed e) :
    unpackFiles disk dir stem (es.flatMap fun e => entryText e.1 e.2) = writeAll disk dir stem es :=
  unpackFrom_entries disk dir stem hes (Nat.le_refl _)

end

/-! ## Another `-C extra-filename` -/

/-- One file of rustc's: the value is put before the extension. -/
structure Output where
  stem : Bytes
  ext : Bytes
  dotless : 46 ∉ ext
  file : File

def Output.name (o : Output) (extra : Bytes) : Bytes := o.stem ++ (extra ++ 46 :: o.ext)

/-- A name in a blob made under `extra`, and back under `extra'`. -/
def renamed (extra extra' name : Bytes) : Bytes :=
  replaceAll (replaceAll name extra (ascii "@")) (ascii "@") extra'

theorem joinPath_inj {dir name name' : Bytes} :
    joinPath dir name = joinPath dir name' ↔ name = name' := by
  unfold joinPath
  split_ifs <;> simp

theorem fileName_joinPath {name : Bytes} (h : 47 ∉ name) (dir : Bytes) :
    fileName (joinPath dir name) = name := by
  have hall : ∀ b ∈ name.reverse, decide (b ≠ 47) = true := by
    intro b hb
    simp only [mem_reverse] at hb
    exact decide_eq_true fun heq => h (heq ▸ hb)
  unfold joinPath fileName
  split_ifs with hdir
  · rw [reverse_append, takeWhile_append_of_pos hall]
    rcases hdir with rfl | hlast
    · simp
    · obtain ⟨init, rfl⟩ := getLast?_eq_some_iff.mp hlast
      simp
  · rw [reverse_append, reverse_cons, append_assoc,
      takeWhile_append_of_pos hall]
    simp

theorem Output.name_inj {o o' : Output} {extra : Bytes} (h : o.name extra = o'.name extra) :
    o.stem = o'.stem ∧ o.ext = o'.ext := by
  -- cut at the last dot
  have hrev : o.ext.reverse ++ 46 :: (o.stem ++ extra).reverse =
      o'.ext.reverse ++ 46 :: (o'.stem ++ extra).reverse := by
    simpa [Output.name] using congrArg reverse h
  obtain ⟨hext, hstem⟩ := cut_inj (by simpa using o.dotless) (by simpa using o'.dotless) hrev
  exact ⟨append_cancel_right (reverse_injective hstem), reverse_injective hext⟩

theorem nodup_names {outs : List Output} {extra : Bytes} (h : (outs.map (·.name extra)).Nodup)
    (extra' : Bytes) : (outs.map (·.name extra')).Nodup := by
  rw [List.Nodup, pairwise_map] at h ⊢
  refine h.imp fun {o o'} hne heq => hne ?_
  obtain ⟨hstem, hext⟩ := Output.name_inj heq
  rw [Output.name, Output.name, hstem, hext]

/-- The value stands in the name once, for all that `ReplaceAll` sees, and no `@` does. -/
structure Output.Marked (o : Output) (extra : Bytes) : Prop where
  ne_nil : extra ≠ []
  stem : 64 ∉ o.stem
  ext : 64 ∉ o.ext
  before : ¬extra <:+: o.stem ++ extra.dropLast
  behind : ¬extra <:+: 46 :: o.ext

theorem replaceAll_at (new : Bytes) :
    replaceAll text (ascii "@") new = text.flatMap fun b => if b = 64 then new else [b] :=
  Text.replaceAll_letter 64 new text

theorem replaceAll_at_of_notMem {text : Bytes} (h : 64 ∉ text) (new : Bytes) :
    replaceAll text (ascii "@") new = text := by
  rw [replaceAll_at]
  have hsame : ∀ b ∈ text, (if b = 64 then new else [b]) = [b] :=
    fun b hb => if_neg (by rintro rfl; exact h hb)
  rw [flatMap_congr hsame, flatMap_singleton']

theorem replaceAll_at_append (rest new : Bytes) :
    replaceAll (text ++ rest) (ascii "@") new =
      replaceAll text (ascii "@") new ++ replaceAll rest (ascii "@") new := by
  simp only [replaceAll_at, flatMap_append]

theorem replaceAll_at_at : replaceAll text (ascii "@") (ascii "@") = text := by
  rw [replaceAll_at]
  have hsame : ∀ b ∈ text, (if b = 64 then ascii "@" else [b]) = [b] := by
    intro b _
    split_ifs with hb
    · rw [hb]
      rfl
    · rfl
  rw [flatMap_congr hsame, flatMap_singleton']

theorem at_notMem_replaceAll : 64 ∉ replaceAll text (ascii "@") [] := by
  rw [replaceAll_at, mem_flatMap]
  rintro ⟨b, -, hb⟩
  split_ifs at hb with hat
  · cases hb
  · exact hat (mem_singleton.mp hb).symm

/-- Renaming is right for every value exactly if the value is marked by the one `@`. -/
theorem Output.renamed_iff (o : Output) (extra : Bytes) :
    (∀ extra', renamed extra extra' (o.name extra) = o.name extra') ↔ o.Marked extra := by
  constructor
  · intro h
    -- the names under `@` and under the empty value already tell
    have hmark : replaceAll (o.name extra) extra (ascii "@") = o.stem ++ 64 :: 46 :: o.ext := by
      rw [← replaceAll_at_at (replaceAll _ _ _)]
      exact h (ascii "@")
    have hnone : 64 ∉ o.stem ++ 46 :: o.ext := by
      have hempty : renamed extra [] (o.name extra) = o.stem ++ 46 :: o.ext := h []
      rw [← hempty]
      exact at_notMem_replaceAll _
    have hne : extra ≠ [] := by
      rintro rfl
      have hlen := congrArg length hmark
      simp [replaceAll, Output.name] at hlen
    have hstem : 64 ∉ o.stem := fun hmem => hnone (mem_append_left _ hmem)
    have hext : 64 ∉ 46 :: o.ext := fun hmem => hnone (mem_append_right _ hmem)
    rw [replaceAll, if_neg hne] at hmark
    obtain ⟨hbefore, hbehind⟩ := (Text.replaceAll_by_letter_iff hne hstem hext).mp hmark
    exact ⟨hne, hstem, fun hmem => hext (mem_cons_of_mem _ hmem), hbefore, hbehind⟩
  · intro h extra'
    have hext : 64 ∉ 46 :: o.ext := by simpa using h.ext
    have hmark : replaceAll (o.name extra) extra (ascii "@") =
      o.stem ++ (ascii "@" ++ 46 :: o.ext) := by
      rw [replaceAll, if_neg h.ne_nil]
      exact (Text.replaceAll_by_letter_iff h.ne_nil h.stem hext).mpr ⟨h.before, h.behind⟩
    have hat : replaceAll (ascii "@") (ascii "@") extra' = extra' := by
      rw [replaceAll_at]
      exact append_nil extra'
    rw [renamed, hmark, replaceAll_at_append, replaceAll_at_append, hat,
      replaceAll_at_of_notMem h.stem, replaceAll_at_of_notMem hext, Output.name]

/-! ### The list of all outputs -/

section

variable {outs : List Output} {extra : Bytes}

theorem notMem_replaceAll {name : Bytes} {b : UInt8} (hb : b ≠ 64) (h : b ∉ name) :
    b ∉ replaceAll name extra (ascii "@") := by
  unfold replaceAll
  split_ifs with hextra
  · exact h
  · intro hin
    rcases mem_of_mem_replaceAll hextra hin with hin | hin
    · exact h hin
    · exact hb (mem_singleton.mp hin)

theorem word_replaceAll {name : Bytes} (hne : name ≠ []) (hblank : 32 ∉ name) :
    word (replaceAll name extra (ascii "@")) = some (replaceAll name extra (ascii "@")) := by
  refine word_of_notMem ?_ (notMem_replaceAll (by decide) hblank)
  unfold replaceAll
  split_ifs with hextra
  · exact hne
  · exact replaceAll_ne_nil hextra (by decide) hne

theorem packed_outputs {host : Host} {dir : Bytes} (hslash : ∀ o ∈ outs, 47 ∉ o.name extra)
    (hfiles : ∀ o ∈ outs, host.readFile (joinPath dir (o.name extra)) = some o.file) :
    packed host (outs.map fun o => joinPath dir (o.name extra)) extra =
      outs.map fun o => (replaceAll (o.name extra) extra (ascii "@"), o.file) := by
  rw [packed, filterMap_map, ← filterMap_eq_map]
  refine filterMap_congr fun o ho => ?_
  simp [hfiles o ho, fileName_joinPath (hslash o ho)]

/-- The entry of an output: one word, and fit to be read back. -/
theorem word_packed {host : Host} {dir : Bytes} {o : Output}
    (hname : 32 ∉ o.name extra ∧ 10 ∉ o.name extra)
    (hfile : host.readFile (joinPath dir (o.name extra)) = some o.file) :
    word (replaceAll (o.name extra) extra (ascii "@")) =
        some (replaceAll (o.name extra) extra (ascii "@")) ∧
      Packed (replaceAll (o.name extra) extra (ascii "@"), o.file) :=
  ⟨word_replaceAll (by simp [Output.name]) hname.1, notMem_replaceAll (by decide) hname.2,
    host.perms hfile, host.size hfile⟩

/-- Packed under one value and unpacked under another, every file gets its new name exactly if that
is what the two replacements make of the old one; for every new value, exactly if the old one is
marked. -/
theorem unpack_pack_iff (host : Host) (disk : Disk) (dir dir' extra' : Bytes)
    (hnodup : (outs.map (·.name extra)).Nodup)
    (hnames : ∀ o ∈ outs, 32 ∉ o.name extra ∧ 10 ∉ o.name extra ∧ 47 ∉ o.name extra)
    (hfiles : ∀ o ∈ outs, host.readFile (joinPath dir (o.name extra)) = some o.file)
    (hdisk : ∀ path, disk.write path = true ∧ disk.chmod path = true) :
    ((unpackFiles disk dir' extra'
          (packFiles host (outs.map fun o => joinPath dir (o.name extra)) extra) =
        (true, outs.map fun o => (joinPath dir' (o.name extra'), o.file)) ∧
      (outs.map (·.name extra')).Nodup) ↔
        ∀ o ∈ outs, renamed extra extra' (o.name extra) = o.name extra') ∧
      ((∀ extra', ∀ o ∈ outs, renamed extra extra' (o.name extra) = o.name extra') ↔
        ∀ o ∈ outs, o.Marked extra) := by
  have hunpack : unpackFiles disk dir' extra'
      (packFiles host (outs.map fun o => joinPath dir (o.name extra)) extra) =
        (true, outs.map fun o =>
          (joinPath dir' (renamed extra extra' (o.name extra)), o.file)) := by
    have hwords : ∀ e ∈ outs.map fun o => (replaceAll (o.name extra) extra (ascii "@"), o.file),
        word e.1 = some e.1 ∧ Packed e := by
      intro e he
      obtain ⟨o, ho, rfl⟩ := mem_map.mp he
      exact word_packed ⟨(hnames o ho).1, (hnames o ho).2.1⟩ (hfiles o ho)
    rw [packFiles, packed_outputs (fun o ho => (hnames o ho).2.2) hfiles,
      unpackFiles_packed disk dir' extra' fun e he => (hwords e he).2,
      writeAll_of_words disk dir' extra' (fun e he => (hwords e he).1) hdisk, map_map]
    rfl
  constructor
  · rw [hunpack, Prod.mk.injEq, map_inj_left, and_iff_right rfl,
      and_iff_left (nodup_names hnodup extra')]
    refine forall₂_congr fun o _ => ?_
    rw [Prod.mk.injEq, and_iff_left rfl, joinPath_inj]
  · constructor
    · exact fun h o ho => (o.renamed_iff extra).mp fun extra' => h extra' o ho
    · exact fun h extra' o ho => (o.renamed_iff extra).mpr (h o ho) extra'

end

def Host.holding (files : List (Bytes × File))
    (h : ∀ e ∈ files, e.2.mode < 512 ∧ e.2.data.length < 2 ^ 64) : Host where
  readFile path := (files.find? (·.1 = path)).map Prod.snd
  perms := by
    intro path file hread
    obtain ⟨e, he, rfl⟩ := Option.map_eq_some_iff.mp hread
    exact (h e (mem_of_find?_eq_some he)).1
  size := by
    intro path file hread
    obtain ⟨e, he, rfl⟩ := Option.map_eq_some_iff.mp hread
    exact (h e (mem_of_find?_eq_some he)).2

def Disk.sound : Disk := ⟨fun _ => true, fun _ => true, fun _ => 420⟩

def rlib : Output := ⟨ascii "libfoo", ascii "rlib", by decide, ascii "1", 420⟩

def depInfo : Output := ⟨ascii "foo", ascii "d", by decide, ascii "2", 384⟩

def crateHost (extra : Bytes) : Host :=
  Host.holding [(joinPath (ascii "/b/deps") (rlib.name extra), rlib.file),
    (joinPath (ascii "/b/deps") (depInfo.name extra), depInfo.file)]
      (by simp [rlib, depInfo, ascii])

theorem unpack_pack_crate :
    unpackFiles Disk.sound (ascii "/c/deps") (ascii "-beef")
        (packFiles (crateHost (ascii "-abcd"))
          ([rlib, depInfo].map fun o => joinPath (ascii "/b/deps") (o.name (ascii "-abcd")))
          (ascii "-abcd")) =
      (true, [rlib, depInfo].map fun o =>
        (joinPath (ascii "/c/deps") (o.name (ascii "-beef")), o.file)) :=
  ((unpack_pack_iff (crateHost (ascii "-abcd")) Disk.sound (ascii "/b/deps") (ascii "/c/deps")
    (ascii "-beef") (by decide) (by decide) (by decide) (fun _ => ⟨rfl, rfl⟩)).1.mpr (by decide)).1

/-- Nothing marks the place where an empty value stood. -/
theorem empty_extra_not_renamed :
    unpackFiles Disk.sound (ascii "/c/deps") (ascii "-beef")
        (packFiles (crateHost []) [joinPath (ascii "/b/deps") (rlib.name [])] []) =
      (true, [(ascii "/c/deps/libfoo.rlib", rlib.file)]) ∧
      rlib.name (ascii "-beef") = ascii "libfoo-beef.rlib" := by
  decide +kernel

end Corepkgs.Jig.RustcMode
