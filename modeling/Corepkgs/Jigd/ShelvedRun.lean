import Corepkgs.Jigd.Shelved
import Corepkgs.Jigd.FailedPut
/-!
# The directories along a run

Every step of the system keeps what the directories say about the store, as long
as a failed `Put` undoes its writes and pack ids are not used twice.
-/

namespace Corepkgs.Jigd

open Lib Store

namespace World

theorem tiers_append (env : PutEnv) (w : World) (p : Pack) (key body : Bytes) :
    (w.append env p key body).1.store.tiers.length = w.store.tiers.length := by
  rcases store_append env w p key body with ⟨hstore, -⟩ | heq
  · rw [hstore]
  · rw [heq]
    change (commit w.store p key body.length).tiers.length = _
    rw [commit_tiers, List.length_modify]

/-- An append either changes nothing or adds one record to the active pack. -/
theorem Shelved.append_any {env : PutEnv} (henv : env.truncateFails = false) {w : World} {a : Nat}
    {recs : Records} (h : w.Shelved a recs) (hc : w.Consistent a) {p : Pack} (hid : p.id = a)
    (hp : w.store.extent a = some p.extent) {key body : Bytes} (hkey : Storable key body)
    (hfits : needsRotate p key body = false) :
    ∃ recs', (w.append env p key body).1.Shelved a recs' ∧ ∀ id ≠ a, recs' id = recs id := by
  obtain ⟨hbytes, hsize, -⟩ := h.written hp
  have hend : (w.fs.data p.file).length = p.size := (congrArg List.length hbytes).trans hsize.symm
  cases hres : (w.append env p key body).2 with
  | error e =>
    rw [append_error henv (hc.frozen hp).lt hend hres]
    exact ⟨recs, h, fun _ _ => rfl⟩
  | ok u =>
    rcases store_append env w p key body with ⟨-, e, herror⟩ | heq
    · rw [herror] at hres
      cases hres
    · rw [heq]
      exact ⟨_, h.append hc hid hp hkey hfits, fun id hne => Function.update_of_ne hne _ _⟩

/-- A record always fits into an empty pack. -/
theorem needsRotate_of_empty {p : Pack} (hp : p.size = 0) (key body : Bytes) :
    needsRotate p key body = false := by
  simp [needsRotate, hp]

theorem shelved_put {env : PutEnv} (henv : env.truncateFails = false) {w : World} {a : Nat}
    {recs : Records} (h : w.Shelved a recs) (hc : w.Consistent a) {key : Bytes} {size : Int}
    {r : Bytes} {d : Demoter} {k : Bool} (hwrap : ¬ Sys.Wraps ⟨w, d, k⟩ (.put env key size r)) :
    ∃ b recs', After w (w.put env key size r).1 a b ∧ (w.put env key size r).1.Shelved b recs' ∧
      (w.put env key size r).1.store.tiers.length = w.store.tiers.length ∧
      ∀ id ≠ b, recs' id = recs id := by
  obtain ⟨p, hp, hid, hext⟩ := hc.activePack
  cases put_path env key size r hp with
  | refused e result =>
    rw [result]
    exact ⟨a, recs, after_refl hc, h, rfl, fun _ _ => rfl⟩
  | direct body hbody _ fits result =>
    rw [result]
    obtain ⟨-, hkey⟩ := storable_of_readBody hbody
    obtain ⟨recs', h', hrecs⟩ := h.append_any henv hc hid hext hkey fits
    exact ⟨a, recs', after_append hc hid hext env key body, h', tiers_append _ _ _ _ _, hrecs⟩
  | stuck body _ _ _ _ result =>
    rw [result]
    refine ⟨a, recs, after_sealActive hc env.rotate.sealing,
      (h.sealActive hc env.rotate.sealing).1, ?_, fun _ _ => rfl⟩
    rw [sealActive_store]
  | rotated body q hbody hclosed full sealed hq result =>
    rw [u32_of_not_wraps hwrap hp hbody hclosed full, hid] at result hq
    rw [result]
    obtain ⟨-, hkey⟩ := storable_of_readBody hbody
    have hseal := after_sealActive hc env.rotate.sealing
    obtain ⟨hsh, hdone⟩ := h.sealActive hc env.rotate.sealing
    have hopen := after_openActive hseal.consistent env.rotate.now (Nat.lt_succ_self a)
    have hsh' := hsh.openActive hseal.consistent (hdone sealed) env.rotate.now (Nat.lt_succ_self a)
    have hqid : q.id = a + 1 := by rw [hq]
    have hqext : ((w.sealActive env.rotate.sealing).1.openActive env.rotate.now
        (a + 1)).store.extent (a + 1) = some q.extent := by
      rw [hq]
      exact (extent_addPack _ _ _).trans (if_pos rfl)
    obtain ⟨recs', h', hrecs⟩ := hsh'.append_any henv hopen.consistent hqid hqext hkey
      (needsRotate_of_empty (by rw [hq]) key body)
    refine ⟨a + 1, recs', hseal.trans (hopen.trans
      (after_append hopen.consistent hqid hqext env key body)), h', ?_, ?_⟩
    · rw [tiers_append]
      change (w.sealActive env.rotate.sealing).1.store.tiers.length = _
      rw [sealActive_store]
    · intro id hne
      rw [hrecs id hne, Function.update_of_ne hne]

end World

/-! ## The invariant of a run -/

structure Sys.Sound (s : Sys) (n a : Nat) (recs : Records) : Prop where
  ok : s.Ok a
  shelved : s.world.Shelved a recs
  tiers : s.store.tiers.length = n
  room : ∀ {id src stage}, s.demoter = .moving id src stage → src + 1 < n

theorem DemoterStep.sound {s s' : Sys} {l : Label} {n a : Nat} {recs : Records}
    (h : DemoterStep s l s') (hs : s.Sound n a recs) : s'.Sound n a recs := by
  obtain ⟨hok', -, -⟩ := h.ok hs.ok
  obtain ⟨⟨hc, hd⟩, hsh, htiers, hroom⟩ := hs
  cases h with
  | recv _ _ | rest _ | pick _ _ _ | giveUp _ => exact ⟨hok', hsh, htiers, fun hm => by cases hm⟩
  | @evict id p hdem hp ht =>
    rw [hdem] at hd
    have hpid : p.id = id := (hc.packs (extent_of_lookup hp)).1
    subst hpid
    refine ⟨hok', hsh.evict hd.2.ne hp ht, ?_, fun hm => by cases hm⟩
    exact (length_addTotal _ _ _).trans htiers
  | @startMove id p hdem hp ht =>
    refine ⟨hok', hsh, htiers, fun hm => ?_⟩
    cases hm
    rw [← htiers]
    exact ht
  | @linked id src i ext hdem hi =>
    rw [hdem] at hd
    obtain ⟨⟨e, he, rfl⟩, hid, -⟩ := hd
    have hlt := hroom hdem
    refine ⟨hok', hsh.link hc hid he (Nat.lt_succ_self _) (htiers ▸ hlt) hi, htiers, fun hm => ?_⟩
    cases hm
    exact hlt
  | @linkFails id src i ext hdem hi =>
    refine ⟨hok', hsh.create hc _ _ _, htiers, fun hm => ?_⟩
    cases hm
    exact hroom hdem
  | copySome m hdem => exact ⟨hok', hsh.copyBytes hc _ _ _ _ m, htiers, fun hm => hroom hm⟩
  | copyRest hdem m _ =>
    refine ⟨hok', hsh.copyBytes hc _ _ _ _ m, htiers, fun hm => ?_⟩
    cases hm
    exact hroom hdem
  | @renamed id src ext hdem =>
    rw [hdem] at hd
    obtain ⟨⟨e, he, rfl⟩, hid, -, i, j, hi, hj, hcopy⟩ := hd
    have hlt := hroom hdem
    refine ⟨hok', hsh.rename hc hid he (Nat.lt_succ_self _) (htiers ▸ hlt) hi hj hcopy, htiers,
      fun hm => ?_⟩
    cases hm
    exact hlt
  | dropTmp hdem => exact ⟨hok', hsh.removeTmp hc _ _ _, htiers, fun hm => by cases hm⟩
  | @switch id src file p hdem hp hfile =>
    rw [hdem] at hd
    obtain ⟨⟨e, he, htier⟩, hid, -, hhint⟩ := hd
    have hpid : p.id = id := (hc.packs (extent_of_lookup hp)).1
    subst hpid
    have hsrc : p.tier = src := by
      have hpe : s.world.store.extent p.id = some p.extent := extent_of_lookup hp
      rw [hpe] at he
      cases he
      exact htier
    subst hsrc
    obtain ⟨i, hi⟩ := hhint
    exact ⟨hok', hsh.switchDown hc hid.ne hp (htiers ▸ hroom hdem) hfile hi,
      (World.length_tiers_switchDown _ p _).trans htiers, fun hm => by cases hm⟩

/-- A step whose failed writes are undone and that reuses no pack id. -/
def Sys.CarefulStep (s : Sys) (l : Label) (s' : Sys) : Prop :=
  s.step l = some s' ∧ Sys.Undoes l ∧ ¬ s.Wraps l

theorem Sys.CarefulStep.sound {s s' : Sys} {l : Label} {n a : Nat} {recs : Records}
    (h : s.CarefulStep l s') (hs : s.Sound n a recs) :
    ∃ b recs', s'.Sound n b recs' ∧ ∀ id ≠ b, recs' id = recs id := by
  obtain ⟨hstep, hundo, hwrap⟩ := h
  rcases Sys.step_inv hstep with ⟨env, key, size, r, rfl, rfl⟩ | ⟨key, now, rfl, rfl⟩ |
    ⟨rfl, rfl⟩ | ⟨-, hdem⟩
  · obtain ⟨⟨hc, hd⟩, hsh, htiers, hroom⟩ := hs
    obtain ⟨b, recs', hafter, hsh', hlen, hrecs⟩ :=
      World.shelved_put (d := s.demoter) (k := s.kicked) hundo hsh hc hwrap
    obtain ⟨hworld, hdemoter⟩ := stepPut_world s env key size r
    refine ⟨b, recs', ⟨⟨?_, ?_⟩, ?_, ?_, ?_⟩, hrecs⟩
    · rw [hworld]
      exact hafter.consistent
    · rw [hworld, hdemoter]
      exact hd.of_after hafter hc
    · rw [hworld]
      exact hsh'
    · rw [Sys.store, hworld]
      exact hlen.trans htiers
    · rw [hdemoter]
      exact hroom
  · obtain ⟨⟨hc, hd⟩, hsh, htiers, hroom⟩ := hs
    have hafter := World.after_get hc key now
    have hlen : (s.world.get key now).1.store.tiers = s.world.store.tiers := by
      unfold World.get
      split
      · rfl
      · exact modifyPack_tiers _ _ _
    refine ⟨a, recs, ⟨⟨hafter.1.consistent, hd.of_after hafter.1 hc⟩, ?_, ?_, hroom⟩,
      fun _ _ => rfl⟩
    · have hsame := hsh.of_store (s := (s.world.get key now).1.store) (World.get_index _ _ _)
        (World.extent_get _ _ _) (by rw [hlen])
      have hfs : (s.world.get key now).1 = ⟨(s.world.get key now).1.store, s.world.fs⟩ := by
        rw [← World.get_fs s.world key now]
      change (s.world.get key now).1.Shelved a recs
      rw [hfs]
      exact hsame
    · exact (congrArg List.length hlen).trans htiers
  · obtain ⟨⟨hc, hd⟩, hsh, htiers, hroom⟩ := hs
    have hsame := hc.sameExtents (s := { s.world.store with closed := true }) rfl (fun _ => rfl)
    have hafter : World.After s.world ⟨{ s.world.store with closed := true }, s.world.fs⟩ a a :=
      ⟨le_rfl, hsame.1, hsame.2, World.Undisturbed.store (fun _ _ => rfl)⟩
    exact ⟨a, recs, ⟨⟨hsame.2, hd.of_after hafter hc⟩, hsh.of_store rfl (fun _ => rfl) rfl, htiers,
      hroom⟩, fun _ _ => rfl⟩
  · exact ⟨a, recs, hdem.sound hs, fun _ _ => rfl⟩

end Corepkgs.Jigd
