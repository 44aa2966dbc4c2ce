import Mathlib
import Corepkgs.Lib.Swap
/-!
# The launcher

`AppendArg` and `Expand` of `launch.cc`, and `storerel` of `core.nu`, which writes the templates
that `Expand` fills in.  A command line is read back as `CommandLineToArgvW` reads it.
-/

namespace Corepkgs.Launch

open Lib List Text

/-! ## Command lines -/

/-- A `std::wstring` of Windows. -/
abbrev Wide := List UInt16

def argLoop : Nat → Wide → Wide
  | slashes, [] => replicate (slashes * 2) 92
  | slashes, chr :: arg =>
    if chr = 92 then argLoop (slashes + 1) arg
    else replicate (if chr = 34 then slashes * 2 + 1 else slashes) 92 ++ chr :: argLoop 0 arg

def appendArg (line arg : Wide) : Wide := line ++ 32 :: 34 :: argLoop 0 arg ++ [34]

/-- An argument that is being read, with the backslashes at its end so far. -/
structure Reading where
  word : Wide
  slashes : Nat
  quoted : Bool

namespace Reading

def text (r : Reading) : Wide := r.word ++ replicate r.slashes 92

/-- One more character: of `2 n` backslashes before a quote `n` are left, of `2 n + 1` also, and the
quote is one of the text.  Other backslashes are taken as they are. -/
def feed (r : Reading) (chr : UInt16) : Reading :=
  if chr = 92 then { r with slashes := r.slashes + 1 }
  else if chr = 34 then
    let word := r.word ++ replicate (r.slashes / 2) 92
    if r.slashes % 2 = 0 then ⟨word, 0, !r.quoted⟩ else ⟨word ++ [34], 0, r.quoted⟩
  else ⟨r.text ++ [chr], 0, r.quoted⟩

end Reading

/-- Blanks outside quotes end an argument. -/
def argvFrom : Option Reading → Wide → List Wide
  | r, [] => (r.map Reading.text).toList
  | r, chr :: line =>
    if (chr = 32 ∨ chr = 9) ∧ r.all (!·.quoted) then
      (r.map Reading.text).toList ++ argvFrom none line
    else argvFrom (some ((r.getD ⟨[], 0, false⟩).feed chr)) line

/-- `CommandLineToArgvW` with the same rules for every argument; the string ends at the first
NUL. -/
def commandLineToArgv (line : Wide) : List Wide := argvFrom none (line.takeWhile (· ≠ 0))

/-- `CommandLineToArgvW` with the name of the program in front: a quoted one ends at the next quote,
whatever backslashes there are. -/
def programLineToArgv (line : Wide) : List Wide :=
  match line.takeWhile (· ≠ 0) with
  | 34 :: line => line.takeWhile (· ≠ 34) :: argvFrom none ((line.dropWhile (· ≠ 34)).drop 1)
  | line => line.takeWhile (fun chr => chr ≠ 32 ∧ chr ≠ 9) ::
      argvFrom none (line.dropWhile fun chr => chr ≠ 32 ∧ chr ≠ 9)

theorem argvFrom_slashes (word : Wide) (slashes n : Nat) (line : Wide) :
    argvFrom (some ⟨word, slashes, true⟩) (replicate n 92 ++ line) =
      argvFrom (some ⟨word, slashes + n, true⟩) line := by
  induction n generalizing slashes with
  | zero => rfl
  | succ n ih =>
    rw [replicate_succ, cons_append, argvFrom, if_neg (by simp)]
    change argvFrom (some ⟨word, slashes + 1, true⟩) _ = _
    rw [ih, Nat.add_right_comm, Nat.add_assoc]

/-- What the loop writes is read back; it still owes `slashes` backslashes. -/
theorem argvFrom_argLoop (arg word : Wide) (slashes : Nat) (line : Wide) :
    argvFrom (some ⟨word, 0, true⟩) (argLoop slashes arg ++ 34 :: line) =
      argvFrom (some ⟨word ++ replicate slashes 92 ++ arg, 0, false⟩) line := by
  induction arg generalizing slashes word with
  | nil =>
    rw [argLoop, argvFrom_slashes, argvFrom, if_neg (by simp)]
    simp [Reading.feed]
  | cons chr arg ih =>
    rw [argLoop]
    by_cases hslash : chr = 92
    · rw [if_pos hslash, ih, hslash, replicate_succ']
      simp
    · rw [if_neg hslash, append_assoc, argvFrom_slashes, cons_append, argvFrom,
        if_neg (by simp), Option.getD_some]
      by_cases hquote : chr = 34
      · have hodd : (0 + (slashes * 2 + 1)) % 2 ≠ 0 := by omega
        have hhalf : (0 + (slashes * 2 + 1)) / 2 = slashes := by omega
        rw [if_pos hquote, Reading.feed, if_neg hslash, if_pos hquote]
        dsimp only
        rw [if_neg hodd, hhalf, ih, hquote]
        simp
      · rw [if_neg hquote, Reading.feed, if_neg hslash, if_neg hquote, ih, Reading.text]
        simp

theorem foldl_appendArg (args : List Wide) (line : Wide) :
    args.foldl appendArg line = line ++ args.foldl appendArg [] := by
  induction args generalizing line with
  | nil => simp
  | cons arg args ih =>
    rw [foldl_cons, foldl_cons, ih, ih (appendArg [] arg)]
    simp [appendArg]

theorem foldl_appendArg_cons (arg : Wide) (args : List Wide) :
    (arg :: args).foldl appendArg [] =
      32 :: 34 :: (argLoop 0 arg ++ 34 :: args.foldl appendArg []) := by
  rw [foldl_cons, foldl_appendArg]
  simp [appendArg]

/-- Between two arguments is the blank in front of the second. -/
theorem argvFrom_appendArgs (r : Option Reading) (hr : r.all (!·.quoted)) (args : List Wide) :
    argvFrom r (args.foldl appendArg []) = (r.map Reading.text).toList ++ args := by
  induction args generalizing r with
  | nil => simp [argvFrom]
  | cons arg args ih =>
    have hopen : (Option.getD none (⟨[], 0, false⟩ : Reading)).feed 34 = ⟨[], 0, true⟩ := rfl
    rw [foldl_appendArg_cons, argvFrom, if_pos ⟨.inl rfl, hr⟩, argvFrom, if_neg (by decide), hopen,
      argvFrom_argLoop, ih _ rfl]
    simp [Reading.text]

theorem zero_notMem_argLoop {arg : Wide} (h : 0 ∉ arg) (slashes : Nat) :
    0 ∉ argLoop slashes arg := by
  induction arg generalizing slashes with
  | nil => simp [argLoop]
  | cons chr arg ih =>
    rw [mem_cons, not_or] at h
    rw [argLoop]
    split_ifs <;> simp [ih h.2, h.1]

theorem zero_notMem_appendArgs {args : List Wide} (h : ∀ arg ∈ args, 0 ∉ arg) :
    0 ∉ args.foldl appendArg [] := by
  induction args with
  | nil => simp
  | cons arg args ih =>
    rw [forall_mem_cons] at h
    rw [foldl_appendArg_cons]
    simp [zero_notMem_argLoop h.1, ih h.2]

/-- A path is written as it is. -/
theorem argLoop_of_path {name : Wide} (hquote : 34 ∉ name) (hlast : name.getLast? ≠ some 92)
    {slashes : Nat} (hslashes : name = [] → slashes = 0) :
    argLoop slashes name = replicate slashes 92 ++ name := by
  induction name generalizing slashes with
  | nil =>
    rw [hslashes rfl]
    rfl
  | cons chr name ih =>
    rw [mem_cons, not_or] at hquote
    have hrest : name.getLast? ≠ some 92 := by
      cases name with
      | nil => simp
      | cons chr' name => simpa using hlast
    rw [argLoop]
    by_cases hslash : chr = 92
    · have hname : name ≠ [] := by
        rintro rfl
        simp [hslash] at hlast
      rw [if_pos hslash, ih hquote.2 hrest (absurd · hname), hslash, replicate_succ']
      simp
    · rw [if_neg hslash, if_neg (Ne.symm hquote.1), ih hquote.2 hrest fun _ => rfl]
      rfl

/-- The arguments that `AppendArg` puts behind each other are read off the command line again, also
without the blank in front, as `Run` passes it on; and there the name of a program may be first. -/
theorem commandLineToArgv_appendArg (args : List Wide) (hnul : ∀ arg ∈ args, 0 ∉ arg) :
    commandLineToArgv (args.foldl appendArg []) = args ∧
      commandLineToArgv ((args.foldl appendArg []).drop 1) = args ∧
      (∀ name ∈ args.head?, 34 ∉ name → name.getLast? ≠ some 92 →
        programLineToArgv ((args.foldl appendArg []).drop 1) = args) := by
  have hcut : ∀ line : Wide, 0 ∉ line → line.takeWhile (· ≠ 0) = line := fun line hline =>
    takeWhile_eq_self_iff.mpr fun chr hchr => by
      rw [decide_eq_true_iff]
      rintro rfl
      exact hline hchr
  have hline := zero_notMem_appendArgs hnul
  have hdrop := fun hmem => hline (mem_of_mem_drop (i := 1) hmem)
  have hargs := argvFrom_appendArgs none rfl args
  rw [commandLineToArgv, commandLineToArgv, programLineToArgv, hcut _ hline, hcut _ hdrop]
  refine ⟨hargs, ?_, fun name hname hquote hlast => ?_⟩
  · cases args with
    | nil => rfl
    | cons arg args =>
      rw [foldl_appendArg_cons] at hargs ⊢
      rw [argvFrom, if_pos (by decide)] at hargs
      exact hargs
  · obtain ⟨args, rfl⟩ := head?_eq_some_iff.mp hname
    have hquoted : ∀ chr ∈ name, decide (chr ≠ 34) = true := fun chr hchr => by
      rw [decide_eq_true_iff]
      rintro rfl
      exact hquote hchr
    rw [foldl_appendArg_cons, drop_one, tail_cons, argLoop_of_path hquote hlast fun _ => rfl]
    simp only [replicate_zero, nil_append]
    rw [takeWhile_append_of_pos hquoted, dropWhile_append_of_pos hquoted,
      takeWhile_cons_of_neg (by decide), dropWhile_cons_of_neg (by decide), append_nil, drop_one,
      tail_cons, argvFrom_appendArgs none rfl]
    rfl

/-- `"a\ b" "c\"` and an empty one. -/
theorem commandLineToArgv_backslashes :
    [[97, 92], [92, 34], []].foldl appendArg [] =
        ([32, 34, 97, 92, 92, 34, 32, 34, 92, 92, 92, 34, 34, 32, 34, 34] : Wide) ∧
      commandLineToArgv ([[97, 92], [92, 34], []].foldl appendArg []) = [[97, 92], [92, 34], []] :=
  ⟨by decide, (commandLineToArgv_appendArg [[97, 92], [92, 34], []] (by decide)).1⟩

/-! ## Records -/

structure Context where
  root : Bytes
  store : Bytes
  self : Bytes
  argv0 : Bytes

def expand (text : Bytes) (ctx : Context) : Bytes :=
  [(ascii "\x7broot\x7d", ctx.root), (ascii "\x7bstore\x7d", ctx.store),
    (ascii "\x7bself\x7d", ctx.self), (ascii "\x7bargv0\x7d", ctx.argv0)].foldl
    (fun text e => replaceAll e.1 e.2 text) text

/-- `storerel`, with `$env.NIX_STORE`. -/
def storerel (nixStore p out : Bytes) : Bytes :=
  replaceAll nixStore (ascii "\x7bstore\x7d") (replaceAll out (ascii "\x7broot\x7d") p)

/-- The templates of a record: the pieces between the occurrences of the prefix, with the other
occurrences of the store directory replaced. -/
theorem storerel_eq {nixStore out : Bytes} (hstore : nixStore.head? = some 47)
    (hbrace : 123 ∉ nixStore) (hout : out ≠ []) (p : Bytes) :
    ∃ pieces, Text.Between out pieces ∧ p = out.intercalate pieces ∧
      storerel nixStore p out = (ascii "\x7broot\x7d").intercalate
        (pieces.map (replaceAll nixStore (ascii "\x7bstore\x7d"))) := by
  obtain ⟨pieces, hpieces, hp, hall⟩ := exists_between hout p
  refine ⟨pieces, hpieces, hp, ?_⟩
  obtain ⟨dir, rfl⟩ := head?_eq_some_iff.mp hstore
  rw [storerel, hall, ← map_id pieces, map_map]
  apply replaceAll_intercalate
  · exact replaceAll_skip dir _ (by decide)
  · intro x _ y hy
    apply replaceAll_append (by simp) hbrace
    rcases hy with rfl | ⟨y, rfl⟩
    · simp
    · exact fun a ha => (Option.some.inj ha).symm

/-- The texts that `Expand` looks for. -/
def placeholders : List Bytes :=
  [ascii "\x7broot\x7d", ascii "\x7bstore\x7d", ascii "\x7bself\x7d", ascii "\x7bargv0\x7d"]

/-- A record in another place: the prefix is replaced by the new root, and the store directory,
where it is not part of the prefix, by the new one.  The pieces are what stands between the
occurrences of the prefix. -/
theorem expand_storerel (nixStore p out : Bytes) (ctx : Context)
    (hstore : nixStore.head? = some 47) (hout : out ≠ [])
    (hbrace : 123 ∉ nixStore ∧ 123 ∉ ctx.root ∧ 123 ∉ ctx.store)
    (hp : 123 ∉ p ∨ ctx.root.head? = some 47 ∧ ctx.store.head? = some 47 ∧
      ∀ key ∈ placeholders, ¬key <:+: p) :
    (∃ pieces, Text.Between out pieces ∧ p = out.intercalate pieces ∧
      expand (storerel nixStore p out) ctx =
        ctx.root.intercalate (pieces.map (replaceAll nixStore ctx.store))) ∧
      (ctx.root = out → ctx.store = nixStore → expand (storerel nixStore p out) ctx = p) := by
  obtain ⟨hdir, hroot, hctx⟩ := hbrace
  obtain ⟨pieces, hpieces, hcut, htemplate⟩ := storerel_eq hstore hdir hout p
  have hne : nixStore ≠ [] := by
    rintro rfl
    cases hstore
  have hfree : ∀ x ∈ pieces, 123 ∈ x → (∀ key ∈ placeholders, ¬key <:+: x) ∧
      ctx.store.head? = some 47 ∧ ctx.root.head? = some 47 := by
    intro x hx hin
    have hpiece : x <:+: p := hcut ▸ infix_intercalate_of_mem out hx
    obtain ⟨hr, hs, hkeys⟩ := hp.resolve_left fun hno => hno (hpiece.subset hin)
    exact ⟨fun key hkey h => hkeys key hkey (h.trans hpiece), hs, hr⟩
  -- the round of the root passes over the templates of the store
  have hroots : replaceAll (ascii "\x7broot\x7d") ctx.root (storerel nixStore p out) =
      ctx.root.intercalate (pieces.map (replaceAll nixStore (ascii "\x7bstore\x7d"))) := by
    rw [htemplate]
    refine replaceAll_round hne (replaceAll_word (by decide) _) (fun y => ?_) fun x hx hin =>
      ⟨(hfree x hx hin).1 _ (by decide), ⟨123, rfl, by decide⟩, 123, rfl, by decide⟩
    change replaceAll _ _ (123 :: (ascii "store\x7d" ++ y)) = 123 :: (ascii "store\x7d" ++ _)
    rw [replaceAll_cons _ (fun h => by cases (cons_prefix_cons.mp (cons_prefix_cons.mp h).2).1),
      replaceAll_skip _ _ (by decide)]
  have hstores : replaceAll (ascii "\x7bstore\x7d") ctx.store
      (ctx.root.intercalate (pieces.map (replaceAll nixStore (ascii "\x7bstore\x7d")))) =
      ctx.root.intercalate (pieces.map (replaceAll nixStore ctx.store)) :=
    replaceAll_round hne (replaceAll_skip _ _ hroot) (replaceAll_word (by decide) _)
      fun x hx hin => ⟨(hfree x hx hin).1 _ (by decide), ⟨123, rfl, by decide⟩,
        47, (hfree x hx hin).2.2, by decide⟩
  -- and the other two find nothing
  have hlast : ∀ w val : Bytes, 123 :: w ∈ placeholders → 47 ∉ w → replaceAll (123 :: w) val
      (ctx.root.intercalate (pieces.map (replaceAll nixStore ctx.store))) =
      ctx.root.intercalate (pieces.map (replaceAll nixStore ctx.store)) := fun w val hkey hw =>
    replaceAll_round hne (replaceAll_skip _ _ hroot) (replaceAll_skip _ _ hctx) fun x hx hin =>
      ⟨(hfree x hx hin).1 _ hkey, ⟨47, (hfree x hx hin).2.1, hw⟩, 47, (hfree x hx hin).2.2, hw⟩
  have hexpand : expand (storerel nixStore p out) ctx =
      ctx.root.intercalate (pieces.map (replaceAll nixStore ctx.store)) := by
    rw [expand, foldl_cons, hroots, foldl_cons, hstores]
    exact (congrArg _ (hlast (ascii "self\x7d") _ (by decide) (by decide))).trans
      (hlast (ascii "argv0\x7d") _ (by decide) (by decide))
  refine ⟨⟨pieces, hpieces, hcut, hexpand⟩, fun hsame hsame' => ?_⟩
  rw [hexpand, hsame, hsame', map_congr_left fun x _ => replaceAll_self hne x, map_id', ← hcut]

theorem expand_storerel_moved :
    expand (storerel (ascii "/nix/store") (ascii "/nix/store/x/$\x7bA\x7d:/nix/store/y")
        (ascii "/nix/store/x")) ⟨ascii "/opt/z", ascii "/opt", [], []⟩ =
        ascii "/opt/z/$\x7bA\x7d:/opt/y" ∧
      expand (storerel (ascii "/nix/store") (ascii "/nix/store/x/$\x7bA\x7d:/nix/store/y")
        (ascii "/nix/store/x")) ⟨ascii "/nix/store/x", ascii "/nix/store", [], []⟩ =
        ascii "/nix/store/x/$\x7bA\x7d:/nix/store/y" :=
  ⟨by decide +kernel, (expand_storerel (ascii "/nix/store")
    (ascii "/nix/store/x/$\x7bA\x7d:/nix/store/y") (ascii "/nix/store/x")
    ⟨ascii "/nix/store/x", ascii "/nix/store", [], []⟩ (by decide) (by decide) (by decide)
    (by decide)).2 rfl rfl⟩

/-- Text that looks like a template is expanded, and a longer name that begins like the prefix is
taken for it. -/
theorem storerel_takes_text :
    expand (storerel (ascii "/nix/store") (ascii "\x7broot\x7d") (ascii "/nix/store/x"))
        ⟨ascii "/nix/store/x", ascii "/nix/store", [], []⟩ = ascii "/nix/store/x" ∧
      expand (storerel (ascii "/nix/store") (ascii "/nix/store/xy/bin") (ascii "/nix/store/x"))
        ⟨ascii "/opt/z", ascii "/opt", [], []⟩ = ascii "/opt/zy/bin" := by
  decide +kernel

end Corepkgs.Launch
