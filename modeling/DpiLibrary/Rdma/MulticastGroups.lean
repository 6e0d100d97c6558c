import Mathlib.Tactic
import DpiLibrary.Foundation.Schedule
import DpiLibrary.Rdma.Manager

/-!
# Multicast groups of a client and of a server

Both keep a map from group addresses to the connections their manager has joined, and
neither removes an entry when a group is left. The client looks an address up before
it uses or joins a group; the server uses whatever the map holds, or inserts, and
joins again without a look. The operations of the manager succeed throughout.
-/

namespace DpiLibrary

open Schedule

/-- What is asked of the manager for a group, with the arguments handed on to it. -/
inductive GroupRequest where
  | leaveMCastGroup
  | sendMCast (memAddr size : ℕ) (signaled : Bool)
  | receiveMCast (memAddr size : ℕ)
  | pollReceiveMCast
  deriving DecidableEq, Repr

/-- A call returns false by itself, joins a group, or reaches the manager with a key. -/
inductive GroupOutcome where
  | refused
  | joined (connKey : ℕ)
  | reached (connKey : ℕ) (request : GroupRequest)
  deriving DecidableEq, Repr

/-- The map of a client or a server, and the counter of its manager. -/
structure MulticastGroups where
  mCastAddr : AList fun _ : String => ℕ
  lastMCastConnKey : ℕ
  deriving DecidableEq

namespace MulticastGroups

def init : MulticastGroups := ⟨∅, 0⟩

/-- The key `joinMCastGroup` of the manager answers. -/
def nextMCastConnKey (g : MulticastGroups) : MulticastGroups × ℕ :=
  ({ g with lastMCastConnKey := (g.lastMCastConnKey + 1) % sizeTBound }, g.lastMCastConnKey)

/-- A join that reaches the manager. -/
def managerJoin (g : MulticastGroups) (mCastAddress : String) : MulticastGroups × GroupOutcome :=
  let (g, retIbAddr) := g.nextMCastConnKey
  ({ g with mCastAddr := g.mCastAddr.insert mCastAddress retIbAddr }, .joined retIbAddr)

end MulticastGroups

namespace RDMAClient

def joinMCastGroup (g : MulticastGroups) (mCastAddress : String) :
    MulticastGroups × GroupOutcome :=
  if mCastAddress ∈ g.mCastAddr then (g, .refused) else g.managerJoin mCastAddress

/-- Leave, send, receive and poll, after a look at the map. -/
def askGroup (g : MulticastGroups) (mCastAddress : String) (request : GroupRequest) :
    MulticastGroups × GroupOutcome :=
  match g.mCastAddr.lookup mCastAddress with
  | none => (g, .refused)
  | some ibAddr => (g, .reached ibAddr request)

def leaveMCastGroup (g : MulticastGroups) (mCastAddress : String) :
    MulticastGroups × GroupOutcome := askGroup g mCastAddress .leaveMCastGroup

def sendMCast (g : MulticastGroups) (mCastAddress : String) (memAddr size : ℕ) (signaled : Bool) :
    MulticastGroups × GroupOutcome := askGroup g mCastAddress (.sendMCast memAddr size signaled)

def receiveMCast (g : MulticastGroups) (mCastAddress : String) (memAddr size : ℕ) :
    MulticastGroups × GroupOutcome := askGroup g mCastAddress (.receiveMCast memAddr size)

def pollReceiveMCast (g : MulticastGroups) (mCastAddress : String) :
    MulticastGroups × GroupOutcome := askGroup g mCastAddress .pollReceiveMCast

end RDMAClient

namespace RDMAServer

def joinMCastGroup (g : MulticastGroups) (mCastAddress : String) :
    MulticastGroups × GroupOutcome := g.managerJoin mCastAddress

/-- Leave, send, receive and poll, through an access that inserts the default key. -/
def askGroup (g : MulticastGroups) (mCastAddress : String) (request : GroupRequest) :
    MulticastGroups × GroupOutcome :=
  match g.mCastAddr.lookup mCastAddress with
  | none => ({ g with mCastAddr := g.mCastAddr.insert mCastAddress 0 }, .reached 0 request)
  | some ibAddr => (g, .reached ibAddr request)

def leaveMCastGroup (g : MulticastGroups) (mCastAddress : String) :
    MulticastGroups × GroupOutcome := askGroup g mCastAddress .leaveMCastGroup

def sendMCast (g : MulticastGroups) (mCastAddress : String) (memAddr size : ℕ) (signaled : Bool) :
    MulticastGroups × GroupOutcome := askGroup g mCastAddress (.sendMCast memAddr size signaled)

def receiveMCast (g : MulticastGroups) (mCastAddress : String) (memAddr size : ℕ) :
    MulticastGroups × GroupOutcome := askGroup g mCastAddress (.receiveMCast memAddr size)

def pollReceiveMCast (g : MulticastGroups) (mCastAddress : String) :
    MulticastGroups × GroupOutcome := askGroup g mCastAddress .pollReceiveMCast

end RDMAServer

/-- Who keeps the map. -/
inductive GroupParty where
  | client
  | server
  deriving DecidableEq, Repr

/-- Calls by the address of a group. -/
inductive GroupCall where
  | joinMCastGroup (mCastAddress : String)
  | leaveMCastGroup (mCastAddress : String)
  | sendMCast (mCastAddress : String) (memAddr size : ℕ) (signaled : Bool)
  | receiveMCast (mCastAddress : String) (memAddr size : ℕ)
  | pollReceiveMCast (mCastAddress : String)
  deriving DecidableEq, Repr

namespace GroupCall

def address : GroupCall → String
  | .joinMCastGroup mCastAddress => mCastAddress
  | .leaveMCastGroup mCastAddress => mCastAddress
  | .sendMCast mCastAddress _ _ _ => mCastAddress
  | .receiveMCast mCastAddress _ _ => mCastAddress
  | .pollReceiveMCast mCastAddress => mCastAddress

/-- What is to reach the manager; a join asks for nothing of a group yet. -/
def request : GroupCall → Option GroupRequest
  | .joinMCastGroup _ => none
  | .leaveMCastGroup _ => some .leaveMCastGroup
  | .sendMCast _ memAddr size signaled => some (.sendMCast memAddr size signaled)
  | .receiveMCast _ memAddr size => some (.receiveMCast memAddr size)
  | .pollReceiveMCast _ => some .pollReceiveMCast

end GroupCall

namespace MulticastGroups

def call (g : MulticastGroups) : GroupParty → GroupCall → MulticastGroups × GroupOutcome
  | .client, .joinMCastGroup a => RDMAClient.joinMCastGroup g a
  | .client, .leaveMCastGroup a => RDMAClient.leaveMCastGroup g a
  | .client, .sendMCast a memAddr size signaled => RDMAClient.sendMCast g a memAddr size signaled
  | .client, .receiveMCast a memAddr size => RDMAClient.receiveMCast g a memAddr size
  | .client, .pollReceiveMCast a => RDMAClient.pollReceiveMCast g a
  | .server, .joinMCastGroup a => RDMAServer.joinMCastGroup g a
  | .server, .leaveMCastGroup a => RDMAServer.leaveMCastGroup g a
  | .server, .sendMCast a memAddr size signaled => RDMAServer.sendMCast g a memAddr size signaled
  | .server, .receiveMCast a memAddr size => RDMAServer.receiveMCast g a memAddr size
  | .server, .pollReceiveMCast a => RDMAServer.pollReceiveMCast g a

end MulticastGroups

/-- Where an address stands after the calls made so far. -/
inductive Membership where
  | never
  | joined (connKey : ℕ)
  | left
  deriving DecidableEq, Repr

/-- The map during a run, and the membership that the calls amount to. -/
structure GroupRun where
  groups : MulticastGroups
  membership : String → Membership

namespace GroupRun

def start : GroupRun := ⟨.init, fun _ => .never⟩

/-- A join that succeeds makes the address joined, with the key answered; a leave of a
joined address makes it left. -/
def track (membership : String → Membership) : GroupCall → GroupOutcome → String → Membership
  | .joinMCastGroup a, .joined connKey => Function.update membership a (.joined connKey)
  | .leaveMCastGroup a, .reached _ _ =>
    match membership a with
    | .joined _ => Function.update membership a .left
    | _ => membership
  | _, _ => membership

def step (party : GroupParty) (s : GroupRun) (c : GroupCall) : Option GroupRun :=
  let (groups, outcome) := s.groups.call party c
  some ⟨groups, track s.membership c outcome⟩

/-- A join of an address that is not joined succeeds. Any other call reaches the manager
with the key of the latest join while the address is joined, and is refused otherwise. -/
def WorksWhileJoined (party : GroupParty) (s : GroupRun) (c : GroupCall) : Prop :=
  match s.membership c.address, c.request with
  | .joined _, none => True
  | _, none => ∃ connKey, (s.groups.call party c).2 = .joined connKey
  | .joined connKey, some request => (s.groups.call party c).2 = .reached connKey request
  | _, some _ => (s.groups.call party c).2 = .refused

/-- A client does not name an address it has left. A server joins, or asks something of a
group it is in. -/
def Allowed (s : GroupRun) (c : GroupCall) : GroupParty → Prop
  | .client => s.membership c.address ≠ .left
  | .server => c.request = none ∨ ∃ connKey, s.membership c.address = .joined connKey

/-- What a map entry says of the address. The server's map only matters while it is joined. -/
def EntryFits : GroupParty → Membership → Option ℕ → Prop
  | .client, .never, entry => entry = none
  | .client, .left, entry => entry ≠ none
  | _, .joined connKey, entry => entry = some connKey
  | .server, _, _ => True

def Kept (party : GroupParty) (s : GroupRun) : Prop :=
  ∀ a, EntryFits party (s.membership a) (s.groups.mCastAddr.lookup a)

theorem kept_start (party : GroupParty) : Kept party start := by
  intro a
  cases party with
  | client => rfl
  | server => trivial

end GroupRun

namespace MulticastGroups

variable {g : MulticastGroups} {c : GroupCall} {request : GroupRequest}

theorem call_client_ask (h : c.request = some request) :
    g.call .client c = RDMAClient.askGroup g c.address request := by
  cases c <;> cases h <;> rfl

theorem call_server_ask (h : c.request = some request) :
    g.call .server c = RDMAServer.askGroup g c.address request := by
  cases c <;> cases h <;> rfl

theorem lookup_managerJoin (g : MulticastGroups) (mCastAddress a : String) :
    (g.managerJoin mCastAddress).1.mCastAddr.lookup a =
      if a = mCastAddress then some g.lastMCastConnKey else g.mCastAddr.lookup a := by
  split_ifs with heq
  · rw [heq]
    exact AList.lookup_insert _
  · exact AList.lookup_insert_ne heq

/-- A call leaves the entries of all other addresses as they are. -/
theorem lookup_call_of_ne (party : GroupParty) {a : String} (hne : a ≠ c.address) :
    (g.call party c).1.mCastAddr.lookup a = g.mCastAddr.lookup a := by
  cases hrequest : c.request with
  | none =>
    obtain ⟨mCastAddress, rfl⟩ : ∃ b, c = .joinMCastGroup b := by
      cases c <;> simp_all [GroupCall.request]
    cases party with
    | client =>
      simp only [call, RDMAClient.joinMCastGroup]
      split_ifs
      · rfl
      · exact (lookup_managerJoin g mCastAddress a).trans (if_neg hne)
    | server => exact (lookup_managerJoin g mCastAddress a).trans (if_neg hne)
  | some request =>
    cases party with
    | client =>
      rw [call_client_ask hrequest, RDMAClient.askGroup]
      cases g.mCastAddr.lookup c.address <;> rfl
    | server =>
      rw [call_server_ask hrequest, RDMAServer.askGroup]
      cases hentry : g.mCastAddr.lookup c.address with
      | none => exact AList.lookup_insert_ne hne
      | some ibAddr => rfl

end MulticastGroups

namespace GroupRun

theorem track_of_ne (membership : String → Membership) (outcome : GroupOutcome) {c : GroupCall}
    {a : String} (hne : a ≠ c.address) : track membership c outcome a = membership a := by
  cases c <;> cases outcome <;> try rfl
  case joinMCastGroup.joined => exact Function.update_of_ne hne _ _
  case leaveMCastGroup.reached mCastAddress connKey request =>
    simp only [track]
    cases membership mCastAddress with
    | joined _ => exact Function.update_of_ne hne _ _
    | _ => rfl

/-- Only a leave that reaches the manager changes the membership of its address, which it
finds joined. -/
theorem track_ask (membership : String → Membership) (outcome : GroupOutcome) {c : GroupCall}
    {request : GroupRequest} (hrequest : c.request = some request) :
    track membership c outcome c.address = membership c.address ∨
      (∃ connKey, membership c.address = .joined connKey) ∧ outcome ≠ .refused ∧
        track membership c outcome c.address = .left := by
  cases c with
  | leaveMCastGroup a =>
    cases outcome with
    | reached connKey request' =>
      simp only [GroupCall.address, track]
      cases h : membership a with
      | joined connKey' => exact Or.inr ⟨⟨connKey', rfl⟩, by simp, Function.update_self _ _ _⟩
      | _ => exact Or.inl h
    | _ => exact Or.inl rfl
  | joinMCastGroup a => cases hrequest
  | _ => exact Or.inl rfl

variable {party : GroupParty} {s s' : GroupRun} {c : GroupCall}

theorem entryFits_join (hs : Kept party s) (a : String) :
    EntryFits party
      (track s.membership (.joinMCastGroup a) (s.groups.call party (.joinMCastGroup a)).2 a)
      ((s.groups.call party (.joinMCastGroup a)).1.mCastAddr.lookup a) := by
  have hjoin : EntryFits party (track s.membership (.joinMCastGroup a)
      (s.groups.managerJoin a).2 a) ((s.groups.managerJoin a).1.mCastAddr.lookup a) := by
    rw [MulticastGroups.lookup_managerJoin, if_pos rfl]
    simp [track, MulticastGroups.managerJoin, MulticastGroups.nextMCastConnKey, EntryFits]
  cases party with
  | client =>
    simp only [MulticastGroups.call, RDMAClient.joinMCastGroup]
    split_ifs
    · exact hs a
    · exact hjoin
  | server => exact hjoin

theorem entryFits_ask (hs : Kept party s) {request : GroupRequest}
    (hrequest : c.request = some request) :
    EntryFits party (track s.membership c (s.groups.call party c).2 c.address)
      ((s.groups.call party c).1.mCastAddr.lookup c.address) := by
  have hentry := hs c.address
  cases party with
  | client =>
    rw [MulticastGroups.call_client_ask hrequest, RDMAClient.askGroup]
    cases hlook : s.groups.mCastAddr.lookup c.address with
    | none =>
      rw [hlook] at hentry
      rcases track_ask s.membership .refused hrequest with htrack | ⟨-, hreached, -⟩
      · simpa only [htrack, hlook] using hentry
      · exact absurd rfl hreached
    | some ibAddr =>
      rw [hlook] at hentry
      rcases track_ask s.membership (.reached ibAddr request) hrequest with htrack | ⟨-, -, hleft⟩
      · simpa only [htrack, hlook] using hentry
      · simp [hleft, hlook, EntryFits]
  | server =>
    rw [MulticastGroups.call_server_ask hrequest, RDMAServer.askGroup]
    cases hlook : s.groups.mCastAddr.lookup c.address with
    | none =>
      rw [hlook] at hentry
      rcases track_ask s.membership (.reached 0 request) hrequest with htrack | ⟨-, -, hleft⟩
      · cases hmember : s.membership c.address with
        | joined connKey =>
          rw [hmember] at hentry
          cases hentry
        | _ =>
          simp only [htrack, hmember]
          trivial
      · simp only [hleft]
        trivial
    | some ibAddr =>
      rw [hlook] at hentry
      rcases track_ask s.membership (.reached ibAddr request) hrequest with htrack | ⟨-, -, hleft⟩
      · simpa only [htrack, hlook] using hentry
      · simp only [hleft]
        trivial

theorem kept_step (hs : Kept party s) (h : step party s c = some s') : Kept party s' := by
  cases h
  intro a
  by_cases heq : a = c.address
  · subst heq
    cases hrequest : c.request with
    | none =>
      cases c with
      | joinMCastGroup a => exact entryFits_join hs a
      | _ => cases hrequest
    | some request => exact entryFits_ask hs hrequest
  · have hlook := MulticastGroups.lookup_call_of_ne (g := s.groups) party heq
    have htrack := track_of_ne s.membership (s.groups.call party c).2 heq
    change EntryFits party (track s.membership c (s.groups.call party c).2 a)
      ((s.groups.call party c).1.mCastAddr.lookup a)
    rw [hlook, htrack]
    exact hs a

theorem worksWhileJoined_client (hs : Kept .client s) :
    WorksWhileJoined .client s c ↔ Allowed s c .client := by
  have hentry := hs c.address
  unfold WorksWhileJoined Allowed
  cases hrequest : c.request with
  | none =>
    cases c with
    | joinMCastGroup a =>
      simp only [MulticastGroups.call, RDMAClient.joinMCastGroup, GroupCall.address] at hentry ⊢
      cases hmember : s.membership a with
      | never =>
        rw [hmember] at hentry
        have habsent : a ∉ s.groups.mCastAddr := AList.lookup_eq_none.mp hentry
        rw [if_neg habsent]
        exact iff_of_true ⟨_, rfl⟩ (by simp)
      | joined connKey => exact iff_of_true trivial (by simp)
      | left =>
        rw [hmember] at hentry
        have hmem : a ∈ s.groups.mCastAddr := by
          rw [← AList.lookup_isSome, Option.isSome_iff_ne_none]
          exact hentry
        rw [if_pos hmem]
        exact iff_of_false (by simp) (by simp)
    | _ => cases hrequest
  | some request =>
    rw [MulticastGroups.call_client_ask hrequest, RDMAClient.askGroup]
    cases hmember : s.membership c.address with
    | never =>
      rw [hmember] at hentry
      rw [show s.groups.mCastAddr.lookup c.address = none from hentry]
      exact iff_of_true rfl (by simp)
    | joined connKey =>
      rw [hmember] at hentry
      rw [show s.groups.mCastAddr.lookup c.address = some connKey from hentry]
      exact iff_of_true rfl (by simp)
    | left =>
      rw [hmember] at hentry
      obtain ⟨connKey, hlook⟩ := Option.ne_none_iff_exists'.mp hentry
      rw [hlook]
      exact iff_of_false (by simp) (by simp)

theorem worksWhileJoined_server (hs : Kept .server s) :
    WorksWhileJoined .server s c ↔ Allowed s c .server := by
  have hentry := hs c.address
  unfold WorksWhileJoined Allowed
  cases hrequest : c.request with
  | none =>
    have hjoins : ∃ connKey, (s.groups.call .server c).2 = .joined connKey := by
      cases c with
      | joinMCastGroup a => exact ⟨_, rfl⟩
      | _ => cases hrequest
    cases s.membership c.address with
    | joined connKey => exact iff_of_true trivial (Or.inl rfl)
    | _ => exact iff_of_true hjoins (Or.inl rfl)
  | some request =>
    rw [MulticastGroups.call_server_ask hrequest, RDMAServer.askGroup]
    cases hmember : s.membership c.address with
    | joined connKey =>
      rw [hmember] at hentry
      rw [show s.groups.mCastAddr.lookup c.address = some connKey from hentry]
      exact iff_of_true rfl (Or.inr ⟨connKey, rfl⟩)
    | _ =>
      cases s.groups.mCastAddr.lookup c.address <;> exact iff_of_false (by simp) (by simp)

/-- Over any run of a client, and of a server: each call does what the membership of its
address asks for exactly if no call of a client names an address it has left, and each call
of a server but a join names one that is joined. -/
theorem worksWhileJoined_iff (party : GroupParty) (calls : List GroupCall) :
    EachStep (step party) (WorksWhileJoined party) start calls ↔
      EachStep (step party) (fun s c => Allowed s c party) start calls := by
  refine eachStep_congr (I := Kept party) (fun s c s' hs _ h => kept_step hs h) ?_ calls start
    (kept_start party)
  intro s c s' hs _
  cases party with
  | client => exact worksWhileJoined_client hs
  | server => exact worksWhileJoined_server hs

/-- After a leave the client still reaches the manager, and cannot join again; a server
reaches it for a group it has never joined. -/
theorem reaches_without_membership :
    ¬ EachStep (step .client) (WorksWhileJoined .client) start
        [.joinMCastGroup "224.0.0.1", .leaveMCastGroup "224.0.0.1",
          .sendMCast "224.0.0.1" 0 8 true] ∧
      ¬ EachStep (step .client) (WorksWhileJoined .client) start
        [.joinMCastGroup "224.0.0.1", .leaveMCastGroup "224.0.0.1",
          .joinMCastGroup "224.0.0.1"] ∧
      ¬ EachStep (step .server) (WorksWhileJoined .server) start
        [.sendMCast "224.0.0.1" 0 8 true] := by
  refine ⟨fun h => ?_, fun h => ?_, fun h => ?_⟩
  · have hworks := h [.joinMCastGroup "224.0.0.1", .leaveMCastGroup "224.0.0.1"] _ _ _
      (List.prefix_refl _) rfl rfl
    cases hworks
  · have hworks := h [.joinMCastGroup "224.0.0.1", .leaveMCastGroup "224.0.0.1"] _ _ _
      (List.prefix_refl _) rfl rfl
    obtain ⟨connKey, houtcome⟩ := hworks
    cases houtcome
  · have hworks := h [] _ _ _ (List.prefix_refl _) rfl rfl
    cases hworks

end GroupRun
end DpiLibrary
