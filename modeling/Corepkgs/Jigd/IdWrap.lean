import Corepkgs.Jigd.GetSound
/-!
# Running out of pack ids

Pack ids are `uint32` and `rotate` takes the next one without looking whether it
is in use.  The exclusive create only notices a file in the first tier, so once
the ids have gone round, a pack that was demoted meanwhile loses its table entry
to the new active pack, and the index entries that named it serve the new pack's
bytes.
-/

namespace Corepkgs.Jigd

open Lib FileSystem Store World Sys List Function

structure PutEnv.Clean (env : PutEnv) : Prop where
  spool : env.spoolFails = false
  sealing : env.rotate.sealing.fails = false
  opening : env.rotate.openFails = false
  seek : env.seekFails = false
  header : env.headerStops = none
  body : env.bodyStops = none

namespace World

variable {env : PutEnv} {w : World} {p : Pack} {key body : Bytes}

theorem append_clean (henv : env.Clean) (w : World) (p : Pack) (key body : Bytes) :
    w.append env p key body =
      (⟨commit w.store p key body.length, ((w.writePack p p.size
        (recordHead key body.length)).writePack p (p.size + (recHeader + key.length)) body).fs⟩,
        .ok ()) := by
  simp only [append, henv.seek, henv.header, henv.body, length_recordHead, Bool.false_eq_true,
    if_false]
  rfl

theorem put_clean_direct (henv : env.Clean) (hkey : Storable key body)
    (hclosed : w.store.closed = false) (hp : w.store.activePack = some p)
    (hfits : needsRotate p key body = false) :
    w.put env key body.length body = w.append env p key body := by
  simp [put, readBody_of_storable henv.spool hkey, putLocked, hclosed, hp, hfits]

theorem put_clean_rotated (henv : env.Clean) (hkey : Storable key body)
    (hclosed : w.store.closed = false) (hp : w.store.activePack = some p)
    (hfull : needsRotate p key body = true)
    (hfree : w.fs.lookup (filePath 0 (u32 (p.id + 1)) .pack) = none) :
    w.put env key body.length body =
      ((w.sealPack env.rotate.sealing p).1.openActive env.rotate.now (u32 (p.id + 1))).append env
        ⟨u32 (p.id + 1), 0, (w.sealPack env.rotate.sealing p).1.fs.inodes.length, 0, 0,
          env.rotate.now, env.rotate.now⟩ key body := by
  have hseal : w.sealActive env.rotate.sealing = ((w.sealPack env.rotate.sealing p).1, true) := by
    rw [sealActive_of _ hp]
    simp [sealPack, henv.sealing]
  have hfree' : (w.sealPack env.rotate.sealing p).1.fs.lookup
      (filePath 0 (u32 (p.id + 1)) .pack) = none := by
    simp only [sealPack, henv.sealing, Bool.false_eq_true, if_false]
    rw [lookup_place, if_neg (by rw [filePath_inj]; simp)]
    exact hfree
  simp [put, readBody_of_storable henv.spool hkey, putLocked, hclosed, hp, hfull, rotate, hseal,
    henv.opening,
    hfree', activePack_openActive]

end World

/-! ## The victim -/

namespace Store

theorem eq_singleton_of_nodup {α : Type*} {l : List α} {x : α} (hnodup : l.Nodup)
    (hall : ∀ y ∈ l, y = x) (hx : x ∈ l) : l = [x] := by
  cases l with
  | nil => cases hx
  | cons y ys =>
    have hy : y = x := hall y (by simp)
    subst hy
    cases ys with
    | nil => rfl
    | cons z zs =>
      have hz : z = y := hall z (by simp)
      subst hz
      simp at hnodup

/-- The packs that may leave a tier, by table key. -/
theorem leaving_eq (s : Store) (t : Nat) :
    s.leaving t = (s.packs.entries.filter fun e =>
      e.2.tier = t && s.active ≠ some e.2.id).map fun e => e.2 := by
  rw [leaving, filter_map]
  rfl

theorem leaving_singleton {s : Store} {t id : Nat} {p : Pack}
    (hp : s.packs.lookup id = some p) (ht : p.tier = t) (hactive : s.active ≠ some p.id)
    (hothers : ∀ q r, s.packs.lookup q = some r → q ≠ id → r.tier = t → s.active = some r.id) :
    s.leaving t = [p] := by
  have hmem : (⟨id, p⟩ : Sigma fun _ : Nat => Pack) ∈ s.packs.entries :=
    AList.mem_lookup_iff.mp hp
  have hsingle : (s.packs.entries.filter fun e =>
      e.2.tier = t && s.active ≠ some e.2.id) = [⟨id, p⟩] := by
    apply eq_singleton_of_nodup ((List.NodupKeys.nodup s.packs.nodupKeys).filter _)
    · rintro ⟨q, r⟩ hqr
      rw [mem_filter] at hqr
      obtain ⟨hin, hcond⟩ := hqr
      simp only [Bool.and_eq_true, decide_eq_true_eq, ne_eq, decide_not, Bool.not_eq_true',
        decide_eq_false_iff_not] at hcond
      have hlook : s.packs.lookup q = some r := AList.mem_lookup_iff.mpr hin
      by_cases hq : q = id
      · subst hq
        rw [hp] at hlook
        cases hlook
        rfl
      · exact absurd (hothers q r hlook hq hcond.1) hcond.2
    · rw [mem_filter]
      refine ⟨hmem, ?_⟩
      simp [ht, hactive]
  rw [leaving_eq, hsingle]
  rfl

theorem leaving_nil {s : Store} {t : Nat}
    (h : ∀ q r, s.packs.lookup q = some r → r.tier = t → s.active = some r.id) :
    s.leaving t = [] := by
  rw [leaving_eq, map_eq_nil_iff, filter_eq_nil_iff]
  rintro ⟨q, r⟩ hin hcond
  simp only [Bool.and_eq_true, decide_eq_true_eq, ne_eq, decide_not, Bool.not_eq_true',
    decide_eq_false_iff_not] at hcond
  exact hcond.2 (h q r (AList.mem_lookup_iff.mpr hin) hcond.1)

/-- Two tiers, the second without a budget. -/
theorem victim_two_tiers {s : Store} {n m : Int} (htiers : s.tiers = [⟨1, n⟩, ⟨0, m⟩])
    (hn : 1 < n) {ps : List Pack} (hps : s.leaving 0 = ps) (hlen : ps.length ≤ 1) :
    s.victim = ps.head? := by
  have hrange : range s.tiers.length = [0, 1] := by rw [htiers]; rfl
  have hsort : ps.insertionSort (fun a b => goesBefore b a = false) = ps := by
    cases ps with
    | nil => rfl
    | cons p ps =>
      cases ps with
      | nil => rfl
      | cons q qs => simp at hlen
  have h0 : overBudget ⟨1, n⟩ = true := by
    simp [overBudget, hn]
  have h1 : overBudget ⟨0, m⟩ = false := by
    simp [overBudget]
  rw [victim, hrange]
  simp only [findSome?_cons, findSome?_nil, htiers, getElem?_cons_zero,
    getElem?_cons_succ, h0, h1, if_true, hps, hsort]
  cases ps.head? <;> simp

end Store

/-! ## Going round -/

def Sys.Strict (s : Sys) : Label → Prop
  | .put env _ _ _ => env.Clean
  | .pick id => ∃ p, s.store.victim = some p ∧ p.id = id
  | .rest => s.store.victim = none
  | _ => True

/-- A step of the program as it stands, ids wrapping or not. -/
def Tracked.StrictStep (x : Tracked) (a : Label) (y : Tracked) : Prop :=
  x.sys.step a = some y.sys ∧ y.latest = x.sys.latestAfter x.latest a ∧ x.sys.Strict a

theorem plainPut_clean : plainPut.Clean := ⟨rfl, rfl, rfl, rfl, rfl, rfl⟩

/-- The key whose pack is demoted first, and the key that fills pack after pack. -/
def firstKey : Bytes := [97]
def fillKey : Bytes := [98]

/-- Two tiers, the active pack `a` alone in the first, everything else moved to the second. -/
structure Alone (x : Tracked) (a : Nat) : Prop where
  active : x.sys.store.active = some a
  closed : x.sys.store.closed = false
  waiting : x.sys.demoter = .waiting
  home : ∃ f n m, x.sys.store.extent a = some ⟨a, 0, f, n⟩ ∧ 1 < n ∧
    x.sys.store.tiers = [⟨1, n⟩, ⟨0, m⟩] ∧ x.sys.fs.lookup (filePath 0 a .pack) = some f
  others : ∀ {id e}, id ≠ a → x.sys.store.extent id = some e → e.id = id ∧ e.tier = 1
  free : ∀ {id}, id ≠ a → x.sys.fs.lookup (filePath 0 id .pack) = none
  entry : x.sys.store.index.lookup firstKey = some ⟨1, 9, 1⟩
  latest : x.latest firstKey = some [1]

/-- After a filling `Put`: pack `a` sealed but still in the first tier, beside the new one. -/
structure Filled (big : Bytes) (x : Tracked) (a b : Nat) : Prop where
  active : x.sys.store.active = some b
  closed : x.sys.store.closed = false
  waiting : x.sys.demoter = .waiting
  kicked : x.sys.kicked = true
  home : ∃ f g n m r, x.sys.store.extent a = some ⟨a, 0, f, n⟩ ∧ 1 < n ∧ 1 < r ∧
    x.sys.store.extent b = some ⟨b, 0, g, r⟩ ∧
    x.sys.store.tiers = [⟨1, n + r⟩, ⟨0, m⟩] ∧ x.sys.fs.lookup (filePath 0 a .pack) = some f ∧
    x.sys.fs.lookup (filePath 0 b .pack) = some g ∧
    slice (x.sys.fs.data g) 9 1 = big.take 1
  hint : ∃ h, x.sys.fs.lookup (filePath 0 a .hint) = some h
  others : ∀ {id e}, id ≠ a → id ≠ b → x.sys.store.extent id = some e → e.id = id ∧ e.tier = 1
  free : ∀ {id}, id ≠ a → id ≠ b → x.sys.fs.lookup (filePath 0 id .pack) = none
  entry : x.sys.store.index.lookup firstKey = some ⟨1, 9, 1⟩
  latest : x.latest firstKey = some [1]

variable {big : Bytes} {x : Tracked} {a b : Nat}

theorem Filled.first (hx : Filled big x a b) (q : Nat) (e : Extent)
    (he : x.sys.store.extent q = some e) (hq : q ≠ a) (ht : e.tier = 0) :
    x.sys.store.active = some e.id := by
  by_cases hqb : q = b
  · subst hqb
    obtain ⟨f, g, n, m, r, -, -, -, hextb, -⟩ := hx.home
    rw [hextb] at he
    cases he
    exact hx.active
  · have hone := (hx.others hq hqb he).2
    omega

theorem u32_succ_ne (a : Nat) : u32 (a + 1) ≠ a := by
  simp only [u32]
  omega

def fill (big : Bytes) : Label := .put plainPut fillKey big.length big

theorem slice_take_one {data : Bytes} {off len : Nat} (hlen : 1 ≤ len)
    (h : slice data off len = big) :
    slice data off 1 = big.take 1 := by
  rw [← h, slice, slice, take_take, Nat.min_eq_left hlen]

section Round

variable {big : Bytes} (hbig : big.length = packLimit)

include hbig

theorem storable_big : Storable fillKey big := by
  refine ⟨by decide, by decide, by decide, ?_⟩
  rw [hbig]
  decide

theorem needsRotate_big {p : Pack} (hp : 0 < p.size) :
    needsRotate p fillKey big = true := by
  simp only [needsRotate, hbig, Bool.and_eq_true, decide_eq_true_eq]
  omega

theorem fill_step {x : Tracked} {a : Nat} (hx : Alone x a) :
    ∃ y, x.StrictStep (fill big) y ∧ Filled big y a (u32 (a + 1)) := by
  obtain ⟨f, n, m, hext, hn, htiers, hname⟩ := hx.home
  obtain ⟨p, hp, hpe⟩ := lookup_of_extent hext
  have hpmk : (⟨p.id, p.tier, p.file, p.size⟩ : Extent) = ⟨a, 0, f, n⟩ := hpe
  simp only [Extent.mk.injEq] at hpmk
  obtain ⟨hpid, hptier, hpfile, hpsize⟩ := hpmk
  have hactive : x.sys.world.store.activePack = some p := by
    rw [activePack]
    exact (congrArg (Option.bind · _) hx.active).trans hp
  have hstore := storable_big hbig
  have hb : u32 (a + 1) ≠ a := u32_succ_ne a
  generalize hbdef : u32 (a + 1) = b at hb
  -- the two halves of the rotation, then the append
  set w1 := (x.sys.world.sealPack plainPut.rotate.sealing p).1 with hw1
  have hw1eq : w1 = ⟨x.sys.store, x.sys.fs.place (filePath 0 a .hint)
      (hintBytes ((x.sys.store.index.pairs).filter fun e => e.2.pack = a))⟩ := by
    rw [hw1, sealPack, if_neg (by simp [plainPut]), hptier, hpid]
    rfl
  set w2 := w1.openActive 0 b with hw2
  set q : Pack := ⟨b, 0, w1.fs.inodes.length, 0, 0, 0, 0⟩ with hq
  have hput : x.sys.world.put plainPut fillKey big.length big =
    w2.append plainPut q fillKey big := by
    have hrot := put_clean_rotated (w := x.sys.world) plainPut_clean hstore hx.closed hactive
      (needsRotate_big hbig (by omega)) (by
        rw [hpid, hbdef]
        exact hx.free hb)
    rw [hpid, hbdef] at hrot
    exact hrot
  rw [append_clean plainPut_clean] at hput
  set fs3 := ((w2.writePack q q.size (recordHead fillKey big.length)).writePack q
    (q.size + (recHeader + fillKey.length)) big).fs with hfs3
  have hstep : x.sys.stepPut plainPut fillKey big.length big =
      ⟨⟨commit w2.store q fillKey big.length, fs3⟩, x.sys.demoter,
        x.sys.kicked || firstOverBudget (commit w2.store q fillKey big.length)⟩ := by
    rw [stepPut, hput]
  have hqext : w2.store.extent q.id = some q.extent :=
    (extent_addPack _ _ _).trans (if_pos rfl)
  have hext' : ∀ i, (commit w2.store q fillKey big.length).extent i =
      if i = b then some ⟨b, 0, w1.fs.inodes.length, 0 + (recHeader + fillKey.length + big.length)⟩
      else x.sys.store.extent i := by
    intro i
    rw [extent_commit hqext]
    split
    · rfl
    · rename_i hi
      refine (extent_addPack _ _ _).trans ((if_neg hi).trans ?_)
      rw [hw1eq]
      rfl
  have htiers' : (commit w2.store q fillKey big.length).tiers =
      [⟨1, n + (0 + (recHeader + fillKey.length + big.length) : Nat)⟩, ⟨0, m⟩] := by
    rw [commit_tiers]
    have hold : w2.store.tiers = x.sys.store.tiers := by rw [hw2, hw1eq]; rfl
    rw [hold, htiers, Nat.zero_add]
    rfl
  have hlook : ∀ path, fs3.lookup path = if path = filePath 0 b .pack then
      some w1.fs.inodes.length else w1.fs.lookup path := fun path =>
    lookup_place w1.fs (filePath 0 b .pack) [] path
  have hlook1 : ∀ path, w1.fs.lookup path = if path = filePath 0 a .hint then
      some x.sys.fs.inodes.length else x.sys.fs.lookup path := by
    intro path
    rw [hw1eq]
    exact lookup_place _ _ _ path
  have hpack : ∀ {t i}, i ≠ b → fs3.lookup (filePath t i .pack) =
      x.sys.fs.lookup (filePath t i .pack) := by
    intro t i hi
    rw [hlook, if_neg (by rw [filePath_inj]; exact fun h => hi h.2.1), hlook1,
      if_neg (by rw [filePath_inj]; simp)]
  have hover : firstOverBudget (commit w2.store q fillKey big.length) = true := by
    simp only [firstOverBudget, htiers', getElem?_cons_zero, overBudget,
      Bool.and_eq_true, decide_eq_true_eq]
    omega
  have hokput : (x.sys.world.put plainPut fillKey big.length big).2 = .ok () := by rw [hput]
  refine ⟨⟨x.sys.stepPut plainPut fillKey big.length big,
    update x.latest fillKey (some (big.take (big.length : Int).toNat))⟩,
    ⟨rfl, ?_, plainPut_clean⟩, ?_⟩
  · rw [fill, latestAfter, hokput]
  · rw [hstep]
    refine ⟨?_, ?_, hx.waiting, ?_, ?_, ?_, ?_, ?_, ?_, ?_⟩
    · exact commit_active _ _ _ _
    · refine (commit_closed _ _ _ _).trans ?_
      rw [hw2, hw1eq]
      exact hx.closed
    · change (x.sys.kicked || _) = true
      rw [hover, Bool.or_true]
    · refine ⟨f, w1.fs.inodes.length, n, m, _, (hext' a).trans ((if_neg (Ne.symm hb)).trans hext),
        hn, ?_, (hext' b).trans (if_pos rfl), htiers', (hpack (Ne.symm hb)).trans hname,
        (hlook _).trans (if_pos rfl), ?_⟩
      · rw [hbig]
        decide
      · have hlt : q.file < w2.fs.inodes.length := by
          change w1.fs.inodes.length < (w1.fs.place _ _).inodes.length
          rw [length_place]
          exact Nat.lt_succ_self _
        obtain ⟨-, hslice⟩ := data_append hlt fillKey big
        refine slice_take_one ?_ hslice
        rw [hbig]
        decide
    · refine ⟨x.sys.fs.inodes.length, (hlook _).trans ?_⟩
      rw [if_neg (by rw [filePath_inj]; simp), hlook1, if_pos rfl]
    · intro id e hia hib he
      change (commit w2.store q fillKey big.length).extent id = some e at he
      rw [hext', if_neg hib] at he
      exact hx.others hia he
    · exact fun hia hib => (hpack hib).trans (hx.free hia)
    · change (commit w2.store q fillKey big.length).index.lookup firstKey = _
      rw [commit_index, Table.lookup_insert, if_neg (by decide)]
      have hold : w2.store.index = x.sys.store.index := by rw [hw2, hw1eq]; rfl
      rw [hold]
      exact hx.entry
    · have hne : firstKey ≠ fillKey := by decide
      simp only [update_of_ne hne]
      exact hx.latest

end Round

/-- The pack just sealed is the only one that may leave the first tier. -/
theorem Filled.victim (hx : Filled big x a b) (hab : a ≠ b) :
    ∃ p, x.sys.store.packs.lookup a = some p ∧ p.id = a ∧ p.tier = 0 ∧
      x.sys.store.active ≠ some a ∧ x.sys.store.victim = some p := by
  obtain ⟨f, g, n, m, r, hexta, hn, hr, hextb, htiers, -⟩ := hx.home
  obtain ⟨p, hp, hpe⟩ := lookup_of_extent hexta
  have hpid : p.id = a := congrArg Extent.id hpe
  have hptier : p.tier = 0 := congrArg Extent.tier hpe
  have hactive : x.sys.store.active ≠ some a := by
    rw [hx.active]
    exact fun hact => hab (Option.some.inj hact).symm
  refine ⟨p, hp, hpid, hptier, hactive,
    victim_two_tiers htiers (by omega) (leaving_singleton hp hptier ?_ ?_) (by simp)⟩
  · rw [hpid]
    exact hactive
  · exact fun q r hq hne ht => hx.first q r.extent (extent_of_lookup hq) hne ht

theorem start_steps (hx : Filled big x a b) (hab : a ≠ b) :
    Steps Tracked.StrictStep x [.recv, .pick a, .startMove]
      ⟨⟨x.sys.world, .moving a 0 (.link .pack), false⟩, x.latest⟩ := by
  obtain ⟨f, g, n, m, r, -, -, -, -, htiers, -⟩ := hx.home
  obtain ⟨p, hp, hpid, hptier, hactive, hvictim⟩ := hx.victim hab
  obtain ⟨s, latest⟩ := x
  obtain ⟨⟨st, fs⟩, d, k⟩ := s
  obtain rfl : d = .waiting := hx.waiting
  obtain rfl : k = true := hx.kicked
  simp only [Sys.store] at *
  refine .cons (t := ⟨⟨⟨st, fs⟩, .looping, false⟩, latest⟩) ⟨rfl, rfl, trivial⟩ ?_
  refine .cons (t := ⟨⟨⟨st, fs⟩, .picked a, false⟩, latest⟩) ⟨?_, rfl, p, hvictim, hpid⟩ ?_
  · simp only [Sys.step, Sys.stepDemoter, Sys.store, hp, Option.isSome_some, true_and]
    rw [if_pos hactive]
  refine .one ⟨?_, rfl, trivial⟩
  simp only [Sys.step, Sys.stepDemoter, Sys.store, hp, hptier, htiers]
  rfl

/-- The demoter moves the sealed pack down and comes to rest. -/
theorem demote_steps (hx : Filled big x a b) (hab : a ≠ b) :
    ∃ as y, Steps Tracked.StrictStep x as y ∧ Alone y b := by
  have hstart := start_steps hx hab
  obtain ⟨f, g, n, m, r, hexta, hn, hr, hextb, htiers, hnamea, hnameb, -⟩ := hx.home
  obtain ⟨h, hhint⟩ := hx.hint
  obtain ⟨p, hp, hpe⟩ := lookup_of_extent hexta
  have hpmk : (⟨p.id, p.tier, p.file, p.size⟩ : Extent) = ⟨a, 0, f, n⟩ := hpe
  simp only [Extent.mk.injEq] at hpmk
  obtain ⟨hpid, hptier, hpfile, hpsize⟩ := hpmk
  have hothers := hx.first
  obtain ⟨s, latest⟩ := x
  obtain ⟨⟨st, fs⟩, d, k⟩ := s
  simp only [Sys.store, Sys.fs] at *
  set fs1 := fs.link (filePath 0 a .pack) (filePath 1 a .pack) with hfs1
  have hlook1 : ∀ q, fs1.lookup q = if q = filePath 1 a .pack then
      some ((fs.lookup (filePath 1 a .pack)).getD f) else fs.lookup q :=
    lookup_link hnamea _
  have hhint1 : fs1.lookup (filePath 0 a .hint) = some h := by
    rw [hlook1, if_neg (by rw [filePath_inj]; simp)]
    exact hhint
  set fs2 := fs1.link (filePath 0 a .hint) (filePath 1 a .hint) with hfs2
  have hlook2 : ∀ q, fs2.lookup q = if q = filePath 1 a .hint then
      some ((fs1.lookup (filePath 1 a .hint)).getD h) else fs1.lookup q :=
    lookup_link hhint1 _
  set file := (fs.lookup (filePath 1 a .pack)).getD f with hfile
  have hcopy : fs2.lookup (filePath 1 a .pack) = some file := by
    rw [hlook2, if_neg (by rw [filePath_inj]; simp), hlook1, if_pos rfl]
  set w := switchDown ⟨st, fs2⟩ p file with hw
  have hext : ∀ q, w.store.extent q =
      if q = a then some ⟨a, 1, file, n⟩ else st.extent q := by
    intro q
    have hsw := extent_switchDown (w := ⟨st, fs2⟩) (p := p) (by rw [hpid]; exact hp) file q
    rw [hpe, hpid, hptier] at hsw
    exact hsw
  have htiers' : w.store.tiers = [⟨1, r⟩, ⟨0, m + n⟩] := by
    change (((st.modifyPack p.id _).tiers.modify p.tier _).modify (p.tier + 1) _) = _
    rw [modifyPack_tiers, hptier, htiers, hpsize]
    simp [List.modify]
  have hlookw : ∀ q, w.fs.lookup q = if q = filePath 0 a .hint then none
      else if q = filePath 0 a .pack then none else fs2.lookup q := by
    intro q
    change ((fs2.remove (filePath p.tier p.id .pack)).remove (filePath p.tier p.id .hint)).lookup
      q = _
    rw [lookup_remove, lookup_remove, hptier, hpid]
  have hpack : ∀ id, id ≠ a → w.fs.lookup (filePath 0 id .pack) =
    fs.lookup (filePath 0 id .pack) := by
    intro id hid
    have hne : ∀ t e, filePath 0 id .pack ≠ filePath t a e := fun t e hpath =>
      hid (filePath_inj.mp hpath).2.1
    rw [hlookw, if_neg (hne _ _), if_neg (hne _ _), hlook2, if_neg (hne _ _), hlook1,
      if_neg (hne _ _)]
  have hrest : w.store.victim = none := by
    refine victim_two_tiers htiers' (by omega) (leaving_nil ?_) (by simp)
    intro q s hq ht
    have hs := extent_of_lookup hq
    rw [hext] at hs
    rw [hw, switchDown_active]
    split at hs
    · have htier := congrArg Extent.tier (Option.some.inj hs)
      change 1 = s.tier at htier
      omega
    · rename_i hqa
      exact hothers q s.extent hs hqa ht
  refine ⟨_ ++ [.linked, .linked, .switch, .rest], ⟨⟨w, .waiting, false⟩, latest⟩,
    hstart.append ?_, ?_⟩
  · refine .cons (t := ⟨⟨⟨st, fs1⟩, .moving a 0 (.link .hint), false⟩, latest⟩)
      ⟨?_, rfl, trivial⟩ ?_
    · simp only [Sys.step, Sys.stepDemoter, Sys.stepMove, Sys.fs, hnamea]
      rfl
    refine .cons (t := ⟨⟨⟨st, fs2⟩, .moving a 0 .done, false⟩, latest⟩) ⟨?_, rfl, trivial⟩ ?_
    · simp only [Sys.step, Sys.stepDemoter, Sys.stepMove, Sys.fs, hhint1]
      rfl
    refine .cons (t := ⟨⟨w, .looping, false⟩, latest⟩) ⟨?_, rfl, trivial⟩ ?_
    · simp only [Sys.step, Sys.stepDemoter, Sys.stepMove, Sys.fs, Sys.store, hp, hcopy]
      rfl
    exact .one ⟨rfl, rfl, hrest⟩
  · refine ⟨?_, ?_, rfl, ⟨g, r, m + n, ?_, hr, htiers', ?_⟩, ?_, ?_, ?_, hx.latest⟩
    · exact (switchDown_active _ _ _).trans hx.active
    · exact (switchDown_closed _ _ _).trans hx.closed
    · exact (hext b).trans ((if_neg (Ne.symm hab)).trans hextb)
    · exact (hpack b (Ne.symm hab)).trans hnameb
    · intro id e hid he
      change w.store.extent id = some e at he
      rw [hext] at he
      split at he
      · rename_i hia
        cases he
        exact ⟨hia.symm, rfl⟩
      · rename_i hia
        exact hx.others hia hid he
    · intro id hid
      change w.fs.lookup _ = _
      by_cases hia : id = a
      · subst hia
        rw [hlookw, if_neg (by rw [filePath_inj]; simp), if_pos rfl]
      · rw [hpack id hia]
        exact hx.free hia hid
    · change w.store.index.lookup firstKey = _
      rw [hw, switchDown_index]
      exact hx.entry

theorem alone_first {w : World} (hopen : openStore plainOpen [1, 0] empty = (w, true)) :
    ∃ x, Tracked.StrictStep ⟨fresh w, fun _ => none⟩ (.put plainPut firstKey 1 [1]) x ∧
      Alone x 1 := by
  have hw := openStore_empty hopen
  set q : Pack := ⟨1, 0, 0, 0, 0, 0, 0⟩ with hq
  have hqext : w.store.extent 1 = some q.extent := by
    rw [hw]
    exact (extent_addPack _ _ _).trans (if_pos rfl)
  have hput : w.put plainPut firstKey 1 [1] = (⟨commit w.store q firstKey 1,
      ((w.writePack q q.size (recordHead firstKey 1)).writePack q
        (q.size + (recHeader + firstKey.length)) [1]).fs⟩, .ok ()) := by
    have hstore : Storable firstKey [1] := by constructor <;> decide
    have hdirect := put_clean_direct (w := w) (p := q) plainPut_clean hstore
      (by rw [hw]; rfl) (by rw [hw]; exact activePack_openActive _ _ _) (by decide)
    rw [append_clean plainPut_clean] at hdirect
    exact hdirect
  have hext : ∀ i, (commit w.store q firstKey 1).extent i =
      if i = 1 then some ⟨1, 0, 0, 10⟩ else none := by
    intro i
    rw [extent_commit hqext]
    split
    · rfl
    · rename_i hi
      rw [hw]
      exact (extent_addPack _ _ _).trans (if_neg hi)
  have hlook : ∀ path, ((w.writePack q q.size (recordHead firstKey 1)).writePack q
      (q.size + (recHeader + firstKey.length)) [1]).fs.lookup path =
        if path = filePath 0 1 .pack then some 0 else none := by
    intro path
    rw [hw]
    exact lookup_place empty (filePath 0 1 .pack) [] path
  refine ⟨⟨(fresh w).stepPut plainPut firstKey 1 [1],
    update (fun _ => none) firstKey (some [1])⟩, ⟨rfl, ?_, plainPut_clean⟩, ?_⟩
  · simp only [latestAfter, fresh, hput]
    rfl
  · have hstep : (fresh w).stepPut plainPut firstKey 1 [1] = ⟨⟨commit w.store q firstKey 1,
        ((w.writePack q q.size (recordHead firstKey 1)).writePack q
          (q.size + (recHeader + firstKey.length)) [1]).fs⟩, .waiting,
        false || firstOverBudget (commit w.store q firstKey 1)⟩ := by
      simp only [stepPut, fresh, hput]
    rw [hstep]
    refine ⟨?_, ?_, rfl, ⟨0, 10, 0, (hext 1).trans (if_pos rfl), by decide, ?_, ?_⟩, ?_, ?_, ?_, ?_⟩
    · refine (commit_active _ _ _ _).trans ?_
      rw [hw]
      rfl
    · refine (commit_closed _ _ _ _).trans ?_
      rw [hw]
      rfl
    · refine (commit_tiers _ _ _ _).trans ?_
      rw [hw]
      rfl
    · exact (hlook _).trans (if_pos rfl)
    · intro id e hid he
      change (commit w.store q firstKey 1).extent id = some e at he
      rw [hext, if_neg hid] at he
      cases he
    · intro id hid
      exact (hlook _).trans (if_neg fun hpath => hid (filePath_inj.mp hpath).2.1)
    · change (commit w.store q firstKey 1).index.lookup firstKey = _
      rw [commit_index, Table.lookup_insert, if_pos rfl]
      rfl
    · simp only [update_self]

/-- Round after round, counted by the id of the active pack. -/
theorem rounds (hbig : big.length = packLimit) (n : Nat) (hx : Alone x 1) :
    ∃ as y, Steps Tracked.StrictStep x as y ∧ Alone y (u32 (n + 1)) := by
  refine Steps.iterate (R := Tracked.StrictStep) (I := fun n x => Alone x (u32 (n + 1))) n ?_
    (s := x) hx
  intro n _ x hx
  obtain ⟨y, hfill, hy⟩ := fill_step hbig hx
  have hid : u32 (u32 (n + 1) + 1) = u32 (n + 1 + 1) := by
    simp only [u32, Nat.mod_add_mod]
  have hne := u32_succ_ne (u32 (n + 1))
  rw [hid] at hy hne
  obtain ⟨bs, z, hdemote, hz⟩ := demote_steps hy (Ne.symm hne)
  exact ⟨_, z, .cons hfill hdemote, hz⟩

/-- `2 ^ 32` rotations later the first pack's id is given out again: its key, never written since,
is answered with another key's bytes. -/
theorem get_serves_other_bytes :
    ∃ (env : OpenEnv) (budgets : List Int) (w : World) (as : List Label) (x : Tracked)
      (key : Bytes) (now : Int) (r : Reader),
      openStore env budgets empty = (w, true) ∧
      Steps Tracked.StrictStep ⟨fresh w, fun _ => none⟩ as x ∧
      (x.sys.world.get key now).2 = some r ∧ x.latest key ≠ some (r.read x.sys.fs) := by
  have hopen : ∃ w, openStore plainOpen [1, 0] empty = (w, true) := ⟨_, rfl⟩
  obtain ⟨w, hopen⟩ := hopen
  obtain ⟨x₁, hfirst, hx₁⟩ := alone_first hopen
  have hbig : (replicate packLimit (0 : UInt8)).length = packLimit := length_replicate
  generalize hbigdef : replicate packLimit (0 : UInt8) = big at hbig
  have hhead : big.take 1 = [0] := by
    rw [← hbigdef, take_replicate]
    rfl
  obtain ⟨as, x₂, hrounds, hx₂⟩ := rounds hbig (2 ^ 32 - 1) hx₁
  obtain ⟨x₃, hlast, hx₃⟩ := fill_step hbig hx₂
  have hone : u32 (u32 (2 ^ 32 - 1 + 1) + 1) = 1 := by decide
  rw [hone] at hx₃
  obtain ⟨f, g, n, m, r, -, -, -, hext, -, -, -, hslice⟩ := hx₃.home
  obtain ⟨p, hp, hpe⟩ := lookup_of_extent hext
  refine ⟨plainOpen, [1, 0], w, _, x₃, firstKey, 0, ⟨g, 9, 1⟩, hopen,
    .cons hfirst (hrounds.append (.one hlast)), ?_, ?_⟩
  · have hentry := hx₃.entry
    have hreader : x₃.sys.world.reader firstKey = some ⟨g, 9, 1⟩ := by
      rw [reader]
      change Option.bind (x₃.sys.store.index.lookup firstKey) _ = _
      rw [hentry, Option.bind_some]
      change Option.map _ (x₃.sys.store.packs.lookup 1) = _
      rw [hp, Option.map_some]
      exact congrArg (fun e : Extent => some (Reader.mk e.file 9 1)) hpe
    rw [get_snd, hreader]
  · rw [hx₃.latest, Reader.read, hslice, hhead]
    decide

end Corepkgs.Jigd
