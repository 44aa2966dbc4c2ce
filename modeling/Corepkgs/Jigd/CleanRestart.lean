import Corepkgs.Jigd.Crash
/-!
# Close and open again

After `Close` every pack has a hint, and the index is rebuilt from hints alone.
What the index held is found again.  What it had dropped is not always gone: the
hint of a pack keeps listing a key that a newer pack took over, so when that newer
pack is evicted the old entry waits for the next start.
-/

namespace Corepkgs.Jigd

open Lib FileSystem Store World List Sys Option

namespace World

/-- Sealing the active pack writes no other hint. -/
theorem listedBy_close {w : World} {a : Nat} (hc : w.Consistent a) (env : SealEnv) {id : Nat}
    (hid : id ≠ a) : (w.close env).1.listedBy id = w.listedBy id := by
  obtain ⟨p, hp, rfl, -⟩ := hc.activePack
  have hclose : w.close env = w.sealPack env p := sealActive_of env hp
  rw [hclose]
  unfold sealPack
  split
  · rfl
  · unfold listedBy
    change bind (w.store.extent id) _ = _
    congr 1
    funext e
    have hlook : (w.fs.place (filePath p.tier p.id .hint) (hintBytes
        ((env.order.visit w.store.index.pairs).filter fun e => e.2.pack = p.id))).lookup
          (filePath e.tier id .hint) = w.fs.lookup (filePath e.tier id .hint) := by
      rw [lookup_place, if_neg]
      exact fun hpath => hid (filePath_inj.mp hpath).2.1
    simp only [hlook]
    cases hk : w.fs.lookup (filePath e.tier id .hint) with
    | none => rfl
    | some k =>
      simp only [map_some]
      rw [data_place_old _ _ (lookup_lt hk)]

/-- Every key that the hint of a sealed pack lists is in the index. -/
def NothingDropped (w : World) : Prop :=
  ∀ id es key l, w.store.active ≠ some id → w.listedBy id = some es → (key, l) ∈ es →
    ∃ l', w.store.index.lookup key = some l'

end World

/-- What a clean restart does to a store in any state of its life. -/
theorem Life.restored_close {n : Nat} {s : Sys} (h : Life n s)
    (hids : ∀ a, s.store.active = some a → a < 1000000) {senv : SealEnv}
    (hseal : senv.fails = false) {env : OpenEnv} {budgets : List Int} (hlen : budgets.length = n)
    (hfault : ∀ t id, env.fault t id = none) (hopen : env.openFails = false) :
    ∃ w a recs, openStore env budgets (s.world.close senv).1.fs = (w, true) ∧
      s.Sound n a recs ∧ World.Restored (s.world.close senv).1 w a recs ∧
      (s.world.close senv).1.UpToDate a recs := by
  obtain ⟨a, recs, hs⟩ := h.sound
  have hc := hs.ok.consistent
  have hstore : (s.world.close senv).1.store = s.world.store := sealActive_store senv s.world
  have htiers : (s.world.sealActive senv).1.store.tiers.length = n :=
    (congrArg (fun st => st.tiers.length) hstore).trans hs.tiers
  obtain ⟨hsh', hsealed⟩ := hs.shelved.sealActive hc senv
  have hdone : (s.world.sealActive senv).2 = true := by
    obtain ⟨p, hp, -⟩ := hc.activePack
    rw [sealActive_of senv hp, sealPack, hseal]
    rfl
  obtain ⟨w, hres, hrest, -⟩ := restored_openStore (hc.sealActive senv) hsh'
    (image_refl (hc.sealActive senv)) (hids a hc.active) (hlen.trans htiers.symm)
    hfault hopen
  exact ⟨w, a, recs, hres, hs, hrest, .inr (hsealed hdone)⟩

/-- `Close` and `OpenStore` on the same directories change no answer, exactly if no hint lists a key
that the index has lost. -/
theorem clean_restart_invisible_iff {n : Nat} {s : Sys} (h : Life n s)
    (hids : ∀ a, s.store.active = some a → a < 1000000) {senv : SealEnv}
    (hseal : senv.fails = false) {env : OpenEnv} {budgets : List Int} (hlen : budgets.length = n)
    (hfault : ∀ t id, env.fault t id = none) (hopen : env.openFails = false) :
    ∃ w, openStore env budgets (s.world.close senv).1.fs = (w, true) ∧
      ((∀ key, w.value key = s.world.value key) ↔ s.world.NothingDropped) := by
  obtain ⟨w, a, recs, hres, hs, hrest, hfresh⟩ := h.restored_close hids hseal hlen hfault hopen
  have hc := hs.ok.consistent
  have hindex : (s.world.close senv).1.store.index = s.store.index :=
    congrArg index (sealActive_store senv s.world)
  refine ⟨w, hres, ?_, ?_⟩
  · intro hsame id es key l hne hlist hmem
    have hid : id ≠ a := by
      rintro rfl
      exact hne hc.active
    by_contra hnone
    rw [← ne_none_iff_exists', not_not] at hnone
    -- the restart would bring the key back
    obtain ⟨l', hl'⟩ := hrest.revives (hindex ▸ hnone)
      ((listedBy_close hc senv hid).trans hlist) hmem
    have hvalue := hsame key
    rw [hrest.shelved.value_of_index hl', value_of_no_index hnone] at hvalue
    cases hvalue
  · intro hkeep key
    cases hl : s.store.index.lookup key with
    | some l =>
      obtain ⟨⟨e, he⟩, -⟩ := hs.shelved.indexed hl
      have hlt : l.pack ≠ a + 1 := ((hc.packs he).2.trans_lt (Nat.lt_succ_self a)).ne
      have hl' := hrest.kept (hindex ▸ hl) (fun _ => hfresh)
      rw [hrest.shelved.value_of_index hl', hs.shelved.value_of_index hl,
        Function.update_of_ne hlt]
    | none =>
      rw [value_of_no_index hl]
      apply value_of_no_index
      rw [eq_none_iff_forall_not_mem]
      intro l' hl'
      obtain ⟨hne, es, hlist, hmem⟩ := hrest.revived (hindex ▸ hl) hl'
      rw [listedBy_close hc senv hne] at hlist
      obtain ⟨l, hl₀⟩ := hkeep l'.pack es key l' (by
        rw [hc.active]
        exact fun heq => hne (some.inj heq).symm) hlist hmem
      have hl₁ : s.store.index.lookup key = some l := hl₀
      rw [hl] at hl₁
      cases hl₁

theorem life_oneKey : Life 1 oneKey := by
  have hopen : openStore plainOpen [0] empty = (_, true) := rfl
  exact .step (.opened (by decide) rfl hopen) (l := .put plainPut [97] 1 [111])
    ⟨rfl, rfl, not_wraps_put (p := ⟨1, 0, 0, 0, 0, 0, 0⟩) rfl (by decide)⟩

theorem clean_restart_invisible_iff_oneKey :
    ∃ w, openStore plainOpen [0] (oneKey.world.close plainPut.rotate.sealing).1.fs = (w, true) ∧
      ((∀ key, w.value key = oneKey.world.value key) ↔ oneKey.world.NothingDropped) := by
  refine clean_restart_invisible_iff life_oneKey ?_ rfl rfl (fun _ _ => rfl) rfl
  intro a ha
  have hact : oneKey.store.active = some 1 := rfl
  rw [hact] at ha
  cases ha
  decide

/-! ## A value from the past -/

/-- One tier with room for two full packs; the key `k` and the key `a` in its first pack. -/
def twoKeys : Sys :=
  ((fresh (openStore plainOpen [2 ^ 29] empty).1).stepPut plainPut [107] 1
    [1]).stepPut plainPut [97] 20 (replicate 20 0)

def bigPut (w : World) (p : Pack) (b : Nat) (key big : Bytes) : World :=
  let sealedWorld := (w.sealPack plainPut.rotate.sealing p).1
  let opened := sealedWorld.openActive 0 b
  let q : Pack := ⟨b, 0, sealedWorld.fs.inodes.length, 0, 0, 0, 0⟩
  ⟨commit opened.store q key big.length, ((opened.writePack q q.size
    (recordHead key big.length)).writePack q (q.size + (recHeader + key.length)) big).fs⟩

theorem put_bigPut {w : World} {p : Pack} {b : Nat} {key big : Bytes} (hb : u32 (p.id + 1) = b)
    (hkey : Storable key big) (hclosed : w.store.closed = false) (hp : w.store.activePack = some p)
    (hfull : needsRotate p key big = true) (hfree : w.fs.lookup (filePath 0 b .pack) = none) :
    w.put plainPut key big.length big = (bigPut w p b key big, .ok ()) := by
  subst hb
  rw [put_clean_rotated plainPut_clean hkey hclosed hp hfull hfree,
    append_clean plainPut_clean]
  rfl

section

variable (big : Bytes)

def pack₂ : Pack := ⟨2, 0, 2, 0 + (8 + 1 + big.length), 0 + big.length, 0, 0⟩

/-- `k` takes a new value, in a pack of its own; another key fills a third pack; `a` is read. -/
def newValue : World := bigPut twoKeys.world ⟨1, 0, 0, 39, 21, 0, 0⟩ 2 [107] big

def thirdPack : World := bigPut (newValue big) (pack₂ big) 3 [98] big

def oldRead : World := ((thirdPack big).get [97] 5).1

def pushedOut : World := (oldRead big).evict (pack₂ big)

end

section

variable {big : Bytes} (hbig : big.length = packLimit)

include hbig

theorem storable_of_big {key : Bytes} (hpos : 0 < key.length) (hle : key.length ≤ 4096)
    (hplain : key.any (fun b => b == 10 || b == 32) = false) : Storable key big := by
  refine ⟨hpos, hle, hplain, ?_⟩
  rw [hbig]
  decide

theorem put_newValue :
    twoKeys.world.put plainPut [107] big.length big = (newValue big, .ok ()) := by
  refine put_bigPut rfl (storable_of_big hbig (by decide) (by decide) (by decide)) rfl rfl ?_ rfl
  simp only [needsRotate, hbig]
  decide

theorem put_thirdPack :
    (newValue big).put plainPut [98] big.length big = (thirdPack big, .ok ()) := by
  refine put_bigPut rfl (storable_of_big hbig (by decide) (by decide) (by decide)) rfl rfl ?_ rfl
  simp only [needsRotate, pack₂, hbig]
  decide

theorem victim_oldRead : (oldRead big).store.victim = some (pack₂ big) := by
  have hleaving : (oldRead big).store.leaving 0 = [⟨1, 0, 0, 39, 20, 5, 0⟩, pack₂ big] := rfl
  have htiers : (oldRead big).store.tiers = [⟨2 ^ 29, 2 ^ 29 + 57⟩] := by
    have hsum : (oldRead big).store.tiers =
        [⟨2 ^ 29, 0 + (10 : Nat) + (29 : Nat) + (8 + 1 + big.length : Nat) +
          (8 + 1 + big.length : Nat)⟩] := rfl
    rw [hsum, hbig]
    rfl
  have hbefore : goesBefore (pack₂ big) ⟨1, 0, 0, 39, 20, 5, 0⟩ = true := by
    simp only [goesBefore, stale, pack₂, hbig]
    decide
  have hrange : range (oldRead big).store.tiers.length = [0] := by rw [htiers]; rfl
  have hover : overBudget ⟨2 ^ 29, 2 ^ 29 + 57⟩ = true := by decide
  rw [victim, hrange, findSome?_cons, htiers]
  simp only [getElem?_cons_zero, hover, if_true, hleaving, insertionSort,
    foldr_cons, foldr_nil, orderedInsert, hbefore, Bool.true_eq_false, if_false,
    head?_cons]

theorem victim_pushedOut : (pushedOut big).store.victim = none := by
  have htiers : (pushedOut big).store.tiers = [⟨2 ^ 29, 2 ^ 28 + 48⟩] := by
    have hsum : (pushedOut big).store.tiers =
        [⟨2 ^ 29, 0 + (10 : Nat) + (29 : Nat) + (8 + 1 + big.length : Nat) +
          (8 + 1 + big.length : Nat) + -((0 + (8 + 1 + big.length) : Nat) : Int)⟩] := rfl
    rw [hsum, hbig]
    rfl
  have hrange : range (pushedOut big).store.tiers.length = [0] := by rw [htiers]; rfl
  have hunder : overBudget ⟨2 ^ 29, 2 ^ 28 + 48⟩ = false := by decide
  rw [victim, hrange, findSome?_cons, htiers]
  simp only [getElem?_cons_zero, hunder, Bool.false_eq_true, if_false, findSome?_nil]

/-- The second pack is evicted, and the demoter goes back to wait. -/
theorem pushedOut_steps : Steps (fun s l s' => Sys.CarefulStep s l s' ∧ s.Strict l)
    (fresh (openStore plainOpen [2 ^ 29] empty).1)
    [.put plainPut [107] 1 [1], .put plainPut [97] 20 (replicate 20 0),
      .put plainPut [107] big.length big, .put plainPut [98] big.length big, .get [97] 5,
      .recv, .pick 2, .evict, .rest]
    (fresh (pushedOut big)) := by
  have hkick₂ : firstOverBudget (newValue big).store = false := by
    have hsum : (newValue big).store.tiers =
        [⟨2 ^ 29, 0 + (10 : Nat) + (29 : Nat) + (8 + 1 + big.length : Nat)⟩] := rfl
    rw [firstOverBudget, hsum, hbig]
    decide
  have hkick₃ : firstOverBudget (thirdPack big).store = true := by
    have hsum : (thirdPack big).store.tiers =
        [⟨2 ^ 29, 0 + (10 : Nat) + (29 : Nat) + (8 + 1 + big.length : Nat) +
          (8 + 1 + big.length : Nat)⟩] := rfl
    rw [firstOverBudget, hsum, hbig]
    decide
  have hput₂ : twoKeys.stepPut plainPut [107] big.length big = fresh (newValue big) := by
    rw [stepPut, put_newValue hbig]
    simp only [hkick₂]
    rfl
  have hput₃ : (fresh (newValue big)).stepPut plainPut [98] big.length big =
      ⟨thirdPack big, .waiting, true⟩ := by
    have hput := put_thirdPack hbig
    rw [stepPut]
    simp only [fresh, hput, hkick₃, Bool.or_true]
  refine .cons ⟨⟨rfl, rfl, not_wraps_put (p := ⟨1, 0, 0, 0, 0, 0, 0⟩) rfl (by decide)⟩,
    plainPut_clean⟩ ?_
  refine .cons (t := twoKeys)
    ⟨⟨rfl, rfl, not_wraps_put (p := ⟨1, 0, 0, 10, 1, 0, 0⟩) rfl (by decide)⟩, plainPut_clean⟩ ?_
  refine .cons ⟨⟨congrArg some hput₂, rfl,
    not_wraps_put (p := ⟨1, 0, 0, 39, 21, 0, 0⟩) rfl (by decide)⟩, plainPut_clean⟩ ?_
  refine .cons ⟨⟨congrArg some hput₃, rfl,
    not_wraps_put (p := pack₂ big) rfl (Nat.le_of_ble_eq_true rfl)⟩, plainPut_clean⟩ ?_
  refine .cons (t := ⟨oldRead big, .waiting, true⟩) ⟨⟨rfl, trivial, id⟩, trivial⟩ ?_
  refine .cons (t := ⟨oldRead big, .looping, false⟩) ⟨⟨rfl, trivial, id⟩, trivial⟩ ?_
  refine .cons (t := ⟨oldRead big, .picked 2, false⟩)
    ⟨⟨rfl, trivial, id⟩, _, victim_oldRead hbig, rfl⟩ ?_
  refine .cons (t := ⟨pushedOut big, .looping, false⟩) ⟨⟨rfl, trivial, id⟩, trivial⟩ ?_
  exact .cons ⟨⟨rfl, trivial, id⟩, victim_pushedOut hbig⟩ (.refl _)

end

/-- The value of `k` from before its overwrite comes back with the restart. -/
theorem restart_revives_old_value : ∃ (as : List Label) (s : Sys) (w : World),
    Steps (fun s l s' => Sys.CarefulStep s l s' ∧ s.Strict l)
      (fresh (openStore plainOpen [2 ^ 29] empty).1) as s ∧
    s.demoter = .waiting ∧
    openStore plainOpen [2 ^ 29] (s.world.close plainPut.rotate.sealing).1.fs = (w, true) ∧
    s.world.value [107] = none ∧ w.value [107] = some [1] := by
  obtain ⟨big, hbig⟩ : ∃ big : Bytes, big.length = packLimit :=
    ⟨replicate packLimit 0, length_replicate⟩
  have hsteps := pushedOut_steps hbig
  have hopen : openStore plainOpen [2 ^ 29] empty = (_, true) := rfl
  have hlife : Life 1 (fresh (pushedOut big)) :=
    hsteps.invariant (P := Life 1) (fun _ _ _ h hstep => h.step hstep.1)
      (.opened (by decide) rfl hopen)
  obtain ⟨w, a, recs, hres, hs, hrest, -⟩ := hlife.restored_close (fun a ha => by
    have hact : (fresh (pushedOut big)).store.active = some 3 := rfl
    rw [hact] at ha
    cases ha
    decide) (show plainPut.rotate.sealing.fails = false from rfl)
    (show ([2 ^ 29] : List Int).length = 1 from rfl)
    (show ∀ t id, plainOpen.fault t id = none from fun _ _ => rfl) rfl
  have hc := hs.ok.consistent
  obtain rfl : a = 3 := (some.inj hc.active).symm
  have hgone : (pushedOut big).store.index.lookup [107] = none := rfl
  have hext : (pushedOut big).store.extent 1 = some ⟨1, 0, 0, 39⟩ := rfl
  have hhint : (pushedOut big).fs.lookup (filePath 0 1 .hint) = some 1 := rfl
  have hdata : (pushedOut big).fs.data 1 =
      hintBytes [([97], ⟨1, 19, 20⟩), ([107], ⟨1, 9, 1⟩)] := rfl
  have hlist : (pushedOut big).listedBy 1 = some [([97], ⟨1, 19, 20⟩), ([107], ⟨1, 9, 1⟩)] := by
    rw [listedBy, hext, bind_some, hhint, map_some, hdata]
    decide +kernel
  refine ⟨_, _, w, hsteps, rfl, hres, value_of_no_index hgone, ?_⟩
  have hindex : ((fresh (pushedOut big)).world.close plainPut.rotate.sealing).1.store.index =
      (pushedOut big).store.index := congrArg index (sealActive_store _ _)
  have hclosed : ∀ {id}, id ≠ 3 →
      ((fresh (pushedOut big)).world.close plainPut.rotate.sealing).1.listedBy id =
        (pushedOut big).listedBy id := fun hid => listedBy_close hc _ hid
  obtain ⟨l, hl⟩ := hrest.revives (hindex ▸ hgone) ((hclosed (by decide)).trans hlist)
    (mem_cons_of_mem _ (mem_cons_self ..))
  obtain ⟨hne, es, hes, hmem⟩ := hrest.revived (hindex ▸ hgone) hl
  rw [hclosed hne] at hes
  -- of the packs but the active one only the first is left
  have hpack : l.pack = 1 := by
    obtain ⟨e, he, -⟩ := bind_eq_some_iff.mp hes
    have hle : l.pack ≤ 3 := (hc.packs he).2
    have hnone₀ : (pushedOut big).store.extent 0 = none := rfl
    have hnone₂ : (pushedOut big).store.extent 2 = none := rfl
    have hne₀ : l.pack ≠ 0 := fun h => by rw [h, hnone₀] at he; cases he
    have hne₂ : l.pack ≠ 2 := fun h => by rw [h, hnone₂] at he; cases he
    omega
  rw [hpack, hlist, some.injEq] at hes
  subst hes
  obtain rfl : l = ⟨1, 9, 1⟩ := by
    simpa using hmem
  have hbytes := (hs.shelved.written hext).1
  rw [hrest.shelved.value_of_index hl, Function.update_of_ne (by decide), ← hbytes]
  rfl

end Corepkgs.Jigd
