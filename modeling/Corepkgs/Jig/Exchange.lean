import Corepkgs.Jig.Receive
/-!
# One call and its answers

What a call makes of the answers to its requests, whole or cut, and what the
answers of the daemon look like: a daemon that hangs up has cut its answer.
-/

namespace Corepkgs.Jig.Call

open Lib Jigd.Wire CacheClient List

variable (z : Zstd)

def Kind : Call → Reply → Prop
  | get _ | getMany _ => IsValue
  | put _ _ | putMany _ | acquireSlot _ | releaseSlot _ => (· = .ok)
  | hasMany _ => IsFlag
  | identities paths => IsIds paths.length

def Ends : Call → Reply → Prop
  | get _ | getMany _ => IsOversize
  | _ => fun _ => False

variable {c : CacheClient}

theorem recvOne_front {α : Type} {recv : CacheClient → α × CacheClient} {val : Option Reply → α}
    {kind ends : Reply → Prop} (hreads : Reads recv val kind ends) {rs : List Reply}
    (hlen : rs.length = 1) (hrs : Ordered kind ends rs)
    (h : c.stream.rest <+: rs.flatMap Reply.bytes) :
    (recv c).1 = val (rs.take (whole rs c.stream.rest))[0]? ∧ (recv c).2.Closed ∧
      (c.stream.rest = rs.flatMap Reply.bytes → (recv c).2.connected = true →
        (recv c).2.stream.rest = []) := by
  obtain ⟨hvalues, hclosed, hempty⟩ := recvMany_front hreads hrs h
  rw [hlen] at hvalues hclosed hempty
  exact ⟨(cons.inj hvalues).1, hclosed, hempty⟩

/-- A call whose requests were all sent, and that has got a front of the answers. -/
theorem receive_front {call : Call} {rs : List Reply} (hlen : rs.length = (call.requests z).length)
    (hrs : Ordered call.Kind call.Ends rs) (h : c.stream.rest <+: rs.flatMap Reply.bytes) :
    (call.receive z rs.length c).1 = call.result z (rs.take (whole rs c.stream.rest)) ∧
      (call.receive z rs.length c).2.Closed ∧
      (c.stream.rest = rs.flatMap Reply.bytes → (call.receive z rs.length c).2.connected = true →
        (call.receive z rs.length c).2.stream.rest = []) := by
  have hnone : rs = [] → c.stream.rest = [] := by
    rintro rfl
    exact prefix_nil.mp h
  cases call with
  | get key =>
    obtain ⟨hvalue, hstate⟩ := recvOne_front (reads_value z) hlen hrs h
    exact ⟨congrArg CallResult.value hvalue, hstate⟩
  | getMany keys =>
    obtain ⟨hvalues, hstate⟩ := recvMany_front (reads_value z) hrs h
    rw [requests, length_map] at hlen
    rw [hlen] at hvalues hstate
    exact ⟨congrArg CallResult.values hvalues, hstate⟩
  | put key value =>
    rw [requests] at hlen
    rw [receive]
    split_ifs at hlen ⊢ with hwire
    · have hempty := hnone (length_eq_zero_iff.mp hlen)
      exact ⟨rfl, .inr (by simp [Dry, hempty]), fun _ _ => hempty⟩
    · exact ⟨rfl, (recvOne_front reads_ok hlen hrs h).2⟩
  | putMany items => exact ⟨rfl, (recvMany_front reads_ok hrs h).2⟩
  | hasMany keys =>
    obtain ⟨hvalues, hstate⟩ := recvMany_front reads_flag hrs h
    rw [requests, length_map] at hlen
    rw [hlen] at hvalues hstate
    exact ⟨congrArg CallResult.flags hvalues, hstate⟩
  | identities paths =>
    rw [requests] at hlen
    split_ifs at hlen with hpaths
    · have hempty := hnone (length_eq_zero_iff.mp hlen)
      rw [length_eq_zero_iff.mp hlen]
      subst hpaths
      exact ⟨rfl, .inr (by simp [receive, recvIds, Dry, hempty]), fun _ _ => hempty⟩
    · obtain ⟨hvalue, hstate⟩ := recvOne_front (reads_ids paths.length) hlen hrs h
      exact ⟨congrArg CallResult.ids hvalue, hstate⟩
  | acquireSlot build =>
    obtain ⟨hvalue, hstate⟩ := recvOne_front reads_ok hlen hrs h
    refine ⟨?_, hstate⟩
    have hok : ∀ r ∈ (rs.take (whole rs c.stream.rest))[0]?, r = .ok := by
      intro r hr
      obtain ⟨front, back, heq⟩ :=
        append_of_mem (mem_of_mem_take (mem_of_getElem? hr))
      rcases hrs front r back heq with hkind | ⟨hfalse, -⟩
      · exact hkind
      · exact hfalse.elim
    rw [receive, result, hvalue]
    cases hfirst : (rs.take (whole rs c.stream.rest))[0]? with
    | none => rfl
    | some r =>
      rw [hok r hfirst]
      rfl
  | releaseSlot build => exact ⟨rfl, (recvOne_front reads_ok hlen hrs h).2⟩

variable (call : Call)

theorem result_nil : call.result z [] = call.miss := by
  cases call with
  | getMany keys => simp [result, miss, valueOf]
  | hasMany keys => simp [result, miss]
  | _ => rfl

theorem receive_dry (sent : Nat) (h : c.Dry) :
    (call.receive z sent c).1 = call.miss ∧ (call.receive z sent c).2.Dry := by
  cases call with
  | get key =>
    obtain ⟨hmiss, hdry⟩ := recvValue_dry z h
    exact ⟨congrArg CallResult.value hmiss, hdry⟩
  | getMany keys =>
    obtain ⟨hmiss, hdry⟩ := recvMany_dry (reads_value z) keys.length h
    refine ⟨?_, hdry⟩
    rw [← result_nil z]
    exact congrArg CallResult.values hmiss
  | put key value =>
    rw [receive]
    split_ifs
    · exact ⟨rfl, h⟩
    · exact ⟨rfl, (recvLine_dry h).2⟩
  | putMany items => exact ⟨rfl, (recvMany_dry reads_ok sent h).2⟩
  | hasMany keys =>
    obtain ⟨hmiss, hdry⟩ := recvMany_dry reads_flag keys.length h
    refine ⟨?_, hdry⟩
    rw [← result_nil z]
    exact congrArg CallResult.flags hmiss
  | identities paths =>
    obtain ⟨hmiss, hdry⟩ := recvIds_dry paths.length h
    exact ⟨congrArg CallResult.ids hmiss, hdry⟩
  | acquireSlot build =>
    obtain ⟨hmiss, hdry⟩ := recvLine_dry h
    refine ⟨?_, hdry⟩
    rw [receive, hmiss]
    rfl
  | releaseSlot build => exact ⟨rfl, (recvLine_dry h).2⟩

theorem run_closed (sent : Nat) (h : c.Closed) :
    (call.run z sent c).1 = call.miss ∧ (call.run z sent c).2.Closed := by
  rw [run]
  split_ifs with hconn hsent
  · exact ⟨rfl, h⟩
  · exact ⟨rfl, h⟩
  · rcases h with hfalse | hdry
    · exact absurd hfalse hconn
    · obtain ⟨hmiss, hlast⟩ := receive_dry z call sent hdry
      exact ⟨hmiss, .inr hlast⟩

theorem run_unsent {call : Call} {sent : Nat} (h : sent < (call.requests z).length)
    (c : CacheClient) : (call.run z sent c).1 = call.miss := by
  rw [run]
  split_ifs with hconn hsent
  · rfl
  · rfl
  · cases call with
    | putMany items => rfl
    | _ => exact absurd ⟨h, rfl⟩ hsent

theorem run_zero (c : CacheClient) : (call.run z 0 c).1 = call.miss := by
  rcases Nat.eq_zero_or_pos (call.requests z).length with hzero | hpos
  · rw [run]
    split_ifs with hconn
    · rfl
    · exact absurd ‹_ ∧ _›.1 (by omega)
    · cases call with
      | get key => simp [requests] at hzero
      | getMany _ | hasMany _ =>
        simp only [requests, length_map, length_eq_zero_iff] at hzero
        subst hzero
        rfl
      | put key value =>
        rw [receive]
        split_ifs <;> rfl
      | identities paths =>
        rw [requests] at hzero
        split_ifs at hzero with hpaths
        subst hpaths
        rfl
      | acquireSlot build => simp [requests] at hzero
      | putMany _ | releaseSlot _ => rfl
  · exact run_unsent z hpos c

end Corepkgs.Jig.Call

/-! ## What the daemon answers -/

namespace Corepkgs.Jigd.Wire

open Lib Jig Jig.CacheClient

def Request.Fits : Request → Reply → Prop
  | get _, reply => ∃ v, reply = .value v
  | has _, reply => IsFlag reply
  | ids paths, reply => IsIds paths.length reply
  | put _ _, reply | slot _, reply | done _, reply => reply = .ok

section

variable {σ : Type} {world : World σ}

def announced (world : World σ) (server : Server σ) : Request → Nat
  | .get key => ((world.get server.state key).2.map Prod.fst).getD 0
  | _ => 0

/-- An answer that a request may get: what it announces is what it has. -/
structure Request.Allows (world : World σ) (server : Server σ) (r : Request) (reply : Reply) :
    Prop where
  fits : r.Fits reply
  size : ∀ wire, reply = .value (some wire) → wire.length ≤ announced world server r

variable {server : Server σ} {r : Request} {reply : Reply}

theorem Request.Fits.allows (h : r.Fits reply)
    (hvalue : ∀ wire, reply ≠ .value (some wire)) : r.Allows world server reply :=
  ⟨h, fun wire heq => absurd heq (hvalue wire)⟩

variable {server' : Server σ}

theorem identities_ok {paths ids : List Bytes}
    (h : identities world server paths = .ok (server', ids)) :
    ids.length = paths.length ∧ ∀ id ∈ ids, 10 ∉ id := by
  induction paths generalizing server server' ids with
  | nil =>
    obtain ⟨-, rfl⟩ := Prod.mk.inj (Except.ok.inj h)
    exact ⟨rfl, by simp⟩
  | cons path paths ih =>
    rw [identities] at h
    split_ifs at h
    simp only at h
    split at h
    · next hrest =>
        obtain ⟨-, rfl⟩ := Prod.mk.inj (Except.ok.inj h)
        obtain ⟨hlen, hids⟩ := ih hrest
        refine ⟨by rw [List.length_cons, List.length_cons, hlen], ?_⟩
        exact List.forall_mem_cons.mpr ⟨world.plain _ _, hids⟩
    · cases h

variable {out : Bytes}

/-- A path that is too long leaves identities that are cut. -/
theorem identities_error {paths : List Bytes} (h : identities world server paths = .error out) :
    ∃ ids, ids.length = paths.length ∧ (∀ id ∈ ids, 10 ∉ id) ∧ out <+: Text.lines 10 ids ∧
      out ≠ Text.lines 10 ids := by
  induction paths generalizing server out with
  | nil => cases h
  | cons path paths ih =>
    rw [identities] at h
    split_ifs at h with hlong
    · obtain rfl := Except.error.inj h
      refine ⟨List.replicate (paths.length + 1) [], by simp, by simp, List.nil_prefix, ?_⟩
      rw [List.replicate_succ, Text.lines_cons]
      simp
    · simp only at h
      split at h
      · cases h
      · next hrest =>
          obtain rfl := Except.error.inj h
          obtain ⟨ids, hlen, hids, hfront, hne⟩ := ih hrest
          refine ⟨(world.identity server.state path).2 :: ids, ?_, ?_, ?_, ?_⟩
          · rw [List.length_cons, List.length_cons, hlen]
          · exact List.forall_mem_cons.mpr ⟨world.plain _ _, hids⟩
          · rw [Text.lines_cons, List.prefix_append_right_inj, List.prefix_cons_inj]
            exact hfront
          · rw [Text.lines_cons]
            exact fun heq => hne (List.cons.inj (List.append_cancel_left heq)).2

def filler : Request → Reply
  | .get _ => .value none
  | .has _ => .flag false
  | .ids paths => .ids (List.replicate paths.length [])
  | .put _ _ | .slot _ | .done _ => .ok

theorem filler_allows (world : World σ) (server : Server σ) (r : Request) :
    r.Allows world server (filler r) := by
  cases r with
  | get key => exact Request.Fits.allows ⟨none, rfl⟩ (by simp [filler])
  | has key => exact Request.Fits.allows ⟨false, rfl⟩ (by simp [filler])
  | ids paths => exact Request.Fits.allows ⟨_, rfl, by simp, by simp⟩ (by simp [filler])
  | _ => exact Request.Fits.allows rfl (by simp [filler])

theorem filler_ne_nil (h : r ≠ .ids []) : (filler r).bytes ≠ [] := by
  cases r with
  | ids paths =>
    cases paths with
    | nil => exact absurd rfl h
    | cons path paths =>
      rw [filler, Reply.bytes, List.length_cons, List.replicate_succ, Text.lines_cons]
      simp
  | get key => exact (by decide : (Reply.value none).bytes ≠ [])
  | has key => exact (by decide : (Reply.flag false).bytes ≠ [])
  | _ => exact (by decide : Reply.ok.bytes ≠ [])

theorem respond_ok
    (h : respond world server r = .ok (server', reply)) : r.Allows world server reply := by
  cases r with
  | get key =>
    rw [respond] at h
    split_ifs at h
    split at h
    · next hget =>
        obtain ⟨-, rfl⟩ := Prod.mk.inj (Except.ok.inj h)
        exact Request.Fits.allows ⟨none, rfl⟩ (by simp)
    · next state size bytes hget =>
        split_ifs at h with hsize
        obtain ⟨-, rfl⟩ := Prod.mk.inj (Except.ok.inj h)
        refine ⟨⟨some bytes, rfl⟩, fun wire heq => ?_⟩
        simp only [Reply.value.injEq, Option.some.injEq] at heq
        rw [announced, hget, ← heq, hsize]
        exact Nat.le_refl _
  | has key =>
    rw [respond] at h
    split_ifs at h
    obtain ⟨-, rfl⟩ := Prod.mk.inj (Except.ok.inj h)
    exact Request.Fits.allows ⟨_, rfl⟩ (by simp)
  | put key wire =>
    rw [respond] at h
    split_ifs at h
    split at h
    · obtain ⟨-, rfl⟩ := Prod.mk.inj (Except.ok.inj h)
      exact Request.Fits.allows rfl (by simp)
    · cases h
  | ids paths =>
    rw [respond] at h
    split_ifs at h
    cases hids : identities world server paths with
    | error out =>
      rw [hids] at h
      cases h
    | ok got =>
      rw [hids] at h
      obtain ⟨-, rfl⟩ := Prod.mk.inj (Except.ok.inj h)
      exact Request.Fits.allows ⟨got.2, rfl, identities_ok hids⟩ (by simp)
  | slot build =>
    rw [respond] at h
    split_ifs at h
    obtain ⟨-, rfl⟩ := Prod.mk.inj (Except.ok.inj h)
    exact Request.Fits.allows rfl (by simp)
  | done build =>
    rw [respond] at h
    split_ifs at h
    · obtain ⟨-, rfl⟩ := Prod.mk.inj (Except.ok.inj h)
      exact Request.Fits.allows rfl (by simp)
    · obtain ⟨-, rfl⟩ := Prod.mk.inj (Except.ok.inj h)
      exact Request.Fits.allows rfl (by simp)

/-- What is written before a hang-up is the front of an answer. -/
def Cut (world : World σ) (server : Server σ) (r : Request) (out : Bytes) : Prop :=
  ∃ reply, r.Allows world server reply ∧ out <+: reply.bytes ∧ out ≠ reply.bytes

theorem cut_value {key : Bytes} {state : σ} {size : Nat} {bytes : Bytes}
    (hget : world.get server.state key = (state, some (size, bytes))) (hshort : bytes.length ≠ size)
    :
    Cut world server (.get key) (ascii "OK " ++ decimal size ++ 10 :: bytes) := by
  have hle := world.bounded hget
  have hlen : (bytes ++ List.replicate (size - bytes.length) 0).length = size := by
    rw [List.length_append, List.length_replicate]
    omega
  refine ⟨.value (some (bytes ++ List.replicate (size - bytes.length) 0)),
    ⟨⟨_, rfl⟩, fun wire heq => ?_⟩, ?_, fun heq => ?_⟩
  · simp only [Reply.value.injEq, Option.some.injEq] at heq
    rw [announced, hget, ← heq, hlen]
    exact Nat.le_refl _
  · rw [Reply.bytes, hlen, List.prefix_append_right_inj, List.prefix_cons_inj]
    exact List.prefix_append _ _
  · rw [Reply.bytes, hlen] at heq
    have hbytes := (List.cons.inj (List.append_cancel_left heq)).2
    rw [← hbytes] at hlen
    exact hshort hlen

theorem respond_error (h : respond world server r = .error out) :
    out = [] ∨ Cut world server r out := by
  cases r with
  | get key =>
    rw [respond] at h
    split_ifs at h
    · exact .inl (Except.error.inj h).symm
    · split at h
      · cases h
      · next state size bytes hget =>
          split_ifs at h with hsize
          obtain rfl := Except.error.inj h
          exact .inr (cut_value hget hsize)
  | has _ | slot _ | done _ =>
    rw [respond] at h
    split_ifs at h
    exact .inl (Except.error.inj h).symm
  | put key wire =>
    rw [respond] at h
    split_ifs at h
    · exact .inl (Except.error.inj h).symm
    · split at h
      · cases h
      · exact .inl (Except.error.inj h).symm
  | ids paths =>
    rw [respond] at h
    split_ifs at h
    · exact .inl (Except.error.inj h).symm
    · cases hids : identities world server paths with
      | ok got =>
        rw [hids] at h
        cases h
      | error cut =>
        rw [hids] at h
        obtain rfl := Except.error.inj h
        obtain ⟨ids, hlen, hplain, hfront, hne⟩ := identities_error hids
        exact .inr ⟨.ids ids, Request.Fits.allows ⟨ids, rfl, hlen, hplain⟩ (by simp), hfront, hne⟩

theorem answer_ok
    (h : answer world server r = .ok (server', reply)) : r.Allows world server reply := by
  rw [answer] at h
  split_ifs at h
  exact respond_ok h

theorem answer_error (h : answer world server r = .error out) :
    Cut world server r out := by
  have hempty : r ≠ .ids [] := by
    rintro rfl
    cases h
  have hcut : out = [] ∨ Cut world server r out := by
    rw [answer] at h
    split_ifs at h
    · exact .inl (Except.error.inj h).symm
    · exact respond_error h
  rcases hcut with rfl | hcut
  · exact ⟨filler r, filler_allows world server r, List.nil_prefix, (filler_ne_nil hempty).symm⟩
  · exact hcut

end

end Corepkgs.Jigd.Wire
