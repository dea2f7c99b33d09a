import Federated.Transport.DnsTunnel
import Federated.Library.Pacing

/-!
# The rate of queries

A query is recorded at least the interval, which is rounded down, and the least jitter
behind the one before it, unless that was recorded at time zero. This keeps to the
configured rate if there is jitter, or nothing is lost to rounding.
-/

namespace Federated.Transport

open Library.Pacing

/-! ## Runs -/

/-- A call, with what it is handed over and what the outside does during it. -/
inductive DnsTunnelCall where
  | tunnelOpen (socket : Bool) (inetPton : Bytes → Option UInt32)
  | tunnelClose
  | tunnelSend (data : Bytes) (pace : Pace) (taken : Bool)
  | tunnelRecv (data : Buffer) (received : Option Nat)

namespace DnsTunnel

/-- The call to send a payload gets as far as the rate limiter. -/
def Enforces (t : DnsTunnel) (data : Bytes) : Prop :=
  t.isOpen = true ∧ ¬ (data.length = 0 ∨ data.length > 200)

instance (t : DnsTunnel) (data : Bytes) : Decidable (t.Enforces data) :=
  inferInstanceAs (Decidable (_ ∧ _))

/-- The times that a call records, and the state behind it. -/
def step (t : DnsTunnel) : DnsTunnelCall → Option (List Nat × DnsTunnel)
  | .tunnelOpen socket inetPton => some ([], (t.dnsTunnelOpen socket inetPton).2)
  | .tunnelClose => some ([], t.dnsTunnelClose.2)
  | .tunnelSend data pace taken =>
    (t.dnsTunnelSend data pace taken).map fun sent =>
      (if t.Enforces data then [sent.2.2.rateLimiter.lastQueryTimeMs] else [], sent.2.2)
  | .tunnelRecv _ _ => some ([], t)

/-- The times that a run of calls records, and the state behind it. -/
def run (t : DnsTunnel) : List DnsTunnelCall → Option (List Nat × DnsTunnel)
  | [] => some ([], t)
  | call :: calls => do
    let (times, t) ← t.step call
    let (rest, t) ← t.run calls
    return (times ++ rest, t)

end DnsTunnel

/-! ## One call -/

/-- The least distance between two queries. -/
def DnsTunnelConfig.distance (config : DnsTunnelConfig) : Nat :=
  1000 / config.maxQps.toNat + config.minJitterMs.toNat

variable {config : DnsTunnelConfig} {t t' : DnsTunnel} {r : RateLimiter} {pace : Pace} {clock : Nat}

theorem minJitterMs_le_jitter (r : RateLimiter) (rand : UInt32) :
    r.minJitterMs.toNat ≤ (r.jitter rand).toNat := by
  rw [RateLimiter.jitter]
  split_ifs with h
  · have hlt : r.minJitterMs.toNat < r.maxJitterMs.toNat := UInt32.lt_iff_toNat_lt.mp h
    have hsub : (r.maxJitterMs - r.minJitterMs).toNat =
        r.maxJitterMs.toNat - r.minJitterMs.toNat :=
      UInt32.toNat_sub_of_le _ _ (UInt32.le_iff_toNat_le.mpr hlt.le)
    have hmod : rand.toNat % (r.maxJitterMs.toNat - r.minJitterMs.toNat) <
        r.maxJitterMs.toNat - r.minJitterMs.toNat := Nat.mod_lt _ (by omega)
    have hmax := r.maxJitterMs.toNat_lt
    rw [UInt32.toNat_add, UInt32.toNat_mod, hsub, Nat.mod_eq_of_lt (by omega)]
    omega
  · exact le_rfl

theorem toNat_interval (maxQps : UInt32) : (1000 / maxQps).toNat = 1000 / maxQps.toNat :=
  UInt32.toNat_div _ _

/-- Behind the wait the clock has not gone back, and the interval is over. -/
theorem RateLimiter.le_wait (r : RateLimiter) (minIntervalMs : Nat) (pace : Pace) (now : Nat) :
    now ≤ r.wait minIntervalMs pace now ∧
      (0 < r.lastQueryTimeMs → r.lastQueryTimeMs ≤ now →
        r.lastQueryTimeMs + minIntervalMs ≤ r.wait minIntervalMs pace now) := by
  rw [RateLimiter.wait]
  grind

/-- What the limiter records, unless it divides by zero. -/
theorem RateLimiter.enforceRateLimit_spec (hqps : r.maxQps ≠ 0) (hlast : r.lastQueryTimeMs ≤ clock)
    (pace : Pace) : ∃ time,
      r.enforceRateLimit pace clock = some { r with lastQueryTimeMs := time } ∧
      clock + r.minJitterMs.toNat ≤ time ∧ (0 < r.lastQueryTimeMs →
        r.lastQueryTimeMs + (1000 / r.maxQps.toNat + r.minJitterMs.toNat) ≤ time) := by
  have hjitter := minJitterMs_le_jitter r pace.rand
  obtain ⟨hnow, hinterval⟩ :=
    r.le_wait (1000 / r.maxQps).toNat pace (clock + pace.before)
  refine ⟨_, by rw [enforceRateLimit, if_neg hqps], by omega, fun hpos => ?_⟩
  have hwait := hinterval hpos (by omega)
  have hdiv := toNat_interval r.maxQps
  omega

/-- What is recorded where nothing takes longer than asked for and the clock has not moved. -/
theorem RateLimiter.enforceRateLimit_punctual (hqps : r.maxQps ≠ 0)
    (hclock : 0 < r.lastQueryTimeMs → clock = r.lastQueryTimeMs) :
    r.enforceRateLimit ⟨0, 0, 0, 0⟩ clock = some { r with
      lastQueryTimeMs :=
        (if 0 < r.lastQueryTimeMs then r.lastQueryTimeMs + 1000 / r.maxQps.toNat else clock) +
          r.minJitterMs.toNat } := by
  have hjitter : r.jitter 0 = r.minJitterMs := by
    rw [jitter]
    split_ifs
    · exact UInt32.add_zero _
    · rfl
  rw [enforceRateLimit, if_neg hqps, hjitter, toNat_interval, wait]
  grind

/-- What sending does to the state, told apart by how far it gets. -/
theorem dnsTunnelSend_cases (t : DnsTunnel) (data : Bytes) (pace : Pace) (taken : Bool) :
    (¬ t.Enforces data ∧ ∃ code, t.dnsTunnelSend data pace taken = some (code, none, t)) ∨
      (t.Enforces data ∧ t.rateLimiter.enforceRateLimit pace t.clock = none ∧
        t.dnsTunnelSend data pace taken = none) ∨
      t.Enforces data ∧ ∃ r code sent transactionId,
        t.rateLimiter.enforceRateLimit pace t.clock = some r ∧
          t.dnsTunnelSend data pace taken = some (code, sent, { t with
            transactionId, rateLimiter := r, clock := r.lastQueryTimeMs }) := by
  rw [DnsTunnel.dnsTunnelSend]
  by_cases hopen : t.isOpen = false
  · exact .inl ⟨fun h => by simp [h.1] at hopen, .errIo, by rw [if_pos hopen]⟩
  · by_cases hsize : data.length = 0 ∨ data.length > 200
    · exact .inl ⟨fun h => h.2 hsize, .errFormat, by rw [if_neg hopen, if_pos hsize]⟩
    · have henforces : t.Enforces data := ⟨by simpa using hopen, hsize⟩
      rw [if_neg hopen, if_neg hsize]
      cases hlimit : t.rateLimiter.enforceRateLimit pace t.clock with
      | none => exact .inr (.inl ⟨henforces, rfl, rfl⟩)
      | some r =>
        refine .inr (.inr ⟨henforces, r, ?_⟩)
        cases hname : queryName t.config.baseDomain data with
        | none => exact ⟨.errFormat, none, t.transactionId, rfl, by simp [hname]⟩
        | some domain =>
          cases hquery : buildDnsQuery domain t.transactionId maxDnsMessage with
          | none =>
            exact ⟨.errFormat, none, t.transactionId + 1, rfl, by simp [hname, hquery]⟩
          | some query =>
            exact ⟨if taken then .ok else .errIo, some (t.server, query), t.transactionId + 1, rfl,
              by simp [hname, hquery]⟩

theorem run_cons {call : DnsTunnelCall} {calls : List DnsTunnelCall} {times rest : List Nat}
    {last : DnsTunnel} (hstep : t.step call = some (times, t'))
    (hrun : t'.run calls = some (rest, last)) :
    t.run (call :: calls) = some (times ++ rest, last) := by
  simp [DnsTunnel.run, hstep, hrun]

/-! ## Runs with one configuration -/

/-- The transport runs with a configuration, and the clock is at the last query or behind it. -/
structure RunsWith (config : DnsTunnelConfig) (t : DnsTunnel) : Prop where
  config_eq : t.config = config
  last_le : t.rateLimiter.lastQueryTimeMs ≤ t.clock
  maxQps_eq : t.isOpen = true → t.rateLimiter.maxQps = config.maxQps
  minJitterMs_eq : t.isOpen = true → t.rateLimiter.minJitterMs = config.minJitterMs

/-- What a call records: nothing, or a time that is far enough behind the last one. -/
inductive Records (config : DnsTunnelConfig) (t t' : DnsTunnel) : List Nat → Prop
  | nothing (hlast : t'.rateLimiter.lastQueryTimeMs = t.rateLimiter.lastQueryTimeMs)
      (hclock : t'.clock = t.clock) : Records config t t' []
  | query (hclock : t'.clock = t'.rateLimiter.lastQueryTimeMs)
      (hjitter : t.clock + config.minJitterMs.toNat ≤ t'.clock)
      (hdistance : 0 < t.rateLimiter.lastQueryTimeMs →
        t.rateLimiter.lastQueryTimeMs + config.distance ≤ t'.clock) :
      Records config t t' [t'.clock]

theorem runsWith_configure (config : DnsTunnelConfig) (clock : Nat) :
    RunsWith config ((DnsTunnel.new clock).configure config) :=
  ⟨rfl, Nat.zero_le _, nofun, nofun⟩

theorem RunsWith.dnsTunnelOpen (h : RunsWith config t) (socket : Bool)
    (inetPton : Bytes → Option UInt32) : RunsWith config (t.dnsTunnelOpen socket inetPton).2 ∧
      Records config t (t.dnsTunnelOpen socket inetPton).2 [] := by
  rw [DnsTunnel.dnsTunnelOpen]
  split_ifs with hopen hsocket
  · exact ⟨h, .nothing rfl rfl⟩
  · exact ⟨h, .nothing rfl rfl⟩
  · cases inetPton t.config.dnsServer with
    | none => exact ⟨⟨h.config_eq, h.last_le, h.maxQps_eq, h.minJitterMs_eq⟩, .nothing rfl rfl⟩
    | some address =>
      refine ⟨⟨h.config_eq, h.last_le, fun _ => ?_, fun _ => ?_⟩, .nothing rfl rfl⟩
      · exact congrArg DnsTunnelConfig.maxQps h.config_eq
      · exact congrArg DnsTunnelConfig.minJitterMs h.config_eq

theorem RunsWith.dnsTunnelClose (h : RunsWith config t) :
    RunsWith config t.dnsTunnelClose.2 ∧ Records config t t.dnsTunnelClose.2 [] := by
  rw [DnsTunnel.dnsTunnelClose]
  split_ifs
  · exact ⟨⟨h.config_eq, h.last_le, nofun, nofun⟩, .nothing rfl rfl⟩
  · exact ⟨h, .nothing rfl rfl⟩

/-- A call does not divide by zero, and records what it may. -/
theorem RunsWith.step (h : RunsWith config t) (hqps : config.maxQps ≠ 0) (call : DnsTunnelCall) :
    ∃ times t', t.step call = some (times, t') ∧ RunsWith config t' ∧
      Records config t t' times := by
  cases call with
  | tunnelOpen socket inetPton => exact ⟨_, _, rfl, h.dnsTunnelOpen socket inetPton⟩
  | tunnelClose => exact ⟨_, _, rfl, h.dnsTunnelClose⟩
  | tunnelRecv data received => exact ⟨_, _, rfl, h, .nothing rfl rfl⟩
  | tunnelSend data pace taken =>
    rw [DnsTunnel.step]
    rcases dnsTunnelSend_cases t data pace taken with
      ⟨henforces, code, hsend⟩ | ⟨henforces, hlimit, -⟩ |
        ⟨henforces, r, code, sent, transactionId, hlimit, hsend⟩
    · rw [hsend, Option.map_some, if_neg henforces]
      exact ⟨_, _, rfl, h, .nothing rfl rfl⟩
    · obtain ⟨time, hsome, -⟩ := RateLimiter.enforceRateLimit_spec
        (h.maxQps_eq henforces.1 ▸ hqps) h.last_le pace
      rw [hlimit] at hsome
      cases hsome
    · obtain ⟨time, hsome, hjitter, hdistance⟩ := RateLimiter.enforceRateLimit_spec
        (h.maxQps_eq henforces.1 ▸ hqps) h.last_le pace
      rw [hlimit, Option.some.injEq] at hsome
      subst hsome
      rw [h.minJitterMs_eq henforces.1] at hjitter hdistance
      rw [h.maxQps_eq henforces.1] at hdistance
      rw [hsend, Option.map_some, if_pos henforces]
      exact ⟨_, _, rfl, ⟨h.config_eq, le_rfl, h.maxQps_eq, h.minJitterMs_eq⟩,
        .query rfl hjitter hdistance⟩

/-- The queries of a run are at a distance from each other and from the last one before them,
where no time is zero. -/
theorem RunsWith.run (h : RunsWith config t) (hqps : config.maxQps ≠ 0)
    (hpos : 0 < t.clock + config.minJitterMs.toNat) (calls : List DnsTunnelCall) :
    ∃ times t', t.run calls = some (times, t') ∧ Spaced config.distance times ∧
      (0 < t.rateLimiter.lastQueryTimeMs →
        ∀ time ∈ times, t.rateLimiter.lastQueryTimeMs + config.distance ≤ time) := by
  induction calls generalizing t with
  | nil => exact ⟨[], t, rfl, .nil, nofun⟩
  | cons call calls ih =>
    obtain ⟨times, next, hstep, hnext, hrecords⟩ := h.step hqps call
    have hclock : 0 < next.clock + config.minJitterMs.toNat := by
      cases hrecords with
      | nothing _ hclock => omega
      | query _ hjitter _ => omega
    obtain ⟨rest, last, hrun, hspaced, hbehind⟩ := ih hnext hclock
    refine ⟨times ++ rest, last, run_cons hstep hrun, ?_⟩
    cases hrecords with
    | nothing hlast _ => exact ⟨hspaced, hlast ▸ hbehind⟩
    | query heq hjitter hdistance =>
      have hrest := hbehind (by omega)
      rw [← heq] at hrest
      refine ⟨List.pairwise_cons.mpr ⟨hrest, hspaced⟩, fun hlast time htime => ?_⟩
      rcases List.mem_cons.mp htime with rfl | htime
      · exact hdistance hlast
      · have := hdistance hlast
        have := hrest time htime
        omega

/-! ## Queries as close as they can be -/

/-- A send during which nothing takes longer than asked for. -/
def promptSend : DnsTunnelCall := .tunnelSend [0] ⟨0, 0, 0, 0⟩ true

theorem RunsWith.step_promptSend (h : RunsWith config t) (hopen : t.isOpen = true)
    (hqps : config.maxQps ≠ 0)
    (hclock : 0 < t.rateLimiter.lastQueryTimeMs → t.clock = t.rateLimiter.lastQueryTimeMs) :
    ∃ t', t.step promptSend = some ([t'.clock], t') ∧ RunsWith config t' ∧ t'.isOpen = true ∧
      t'.clock = t'.rateLimiter.lastQueryTimeMs ∧
      t'.clock = if 0 < t.rateLimiter.lastQueryTimeMs then
        t.rateLimiter.lastQueryTimeMs + config.distance
        else t.clock + config.minJitterMs.toNat := by
  have hlimit := RateLimiter.enforceRateLimit_punctual (h.maxQps_eq hopen ▸ hqps) hclock
  have henforces : t.Enforces [0] := ⟨hopen, by decide⟩
  rcases dnsTunnelSend_cases t [0] ⟨0, 0, 0, 0⟩ true with
    ⟨hnot, -⟩ | ⟨-, hnone, -⟩ | ⟨-, r, code, sent, transactionId, hsome, hsend⟩
  · exact absurd henforces hnot
  · rw [hlimit] at hnone
    cases hnone
  · rw [hlimit, Option.some.injEq, h.maxQps_eq hopen, h.minJitterMs_eq hopen] at hsome
    have hstep : t.step promptSend = some ([r.lastQueryTimeMs],
        { t with transactionId, rateLimiter := r, clock := r.lastQueryTimeMs }) := by
      rw [promptSend, DnsTunnel.step, hsend, Option.map_some, if_pos henforces]
    refine ⟨{ t with transactionId, rateLimiter := r, clock := r.lastQueryTimeMs }, hstep,
      ⟨h.config_eq, le_rfl, fun _ => ?_, fun _ => ?_⟩, hopen, rfl, ?_⟩
    · rw [← hsome]
    · rw [← hsome]
    · rw [DnsTunnelConfig.distance]
      grind

/-- Queries as close as they can be: each at the distance behind the one before, or at time
zero as long as there is no jitter. -/
theorem RunsWith.run_promptSends (h : RunsWith config t) (hopen : t.isOpen = true)
    (hqps : config.maxQps ≠ 0) (hclock : t.clock = t.rateLimiter.lastQueryTimeMs) {d : Nat}
    (hd : if 0 < t.clock then d = config.distance else d = 0 ∧ config.minJitterMs = 0) (k : Nat) :
    ∃ t', t.run (List.replicate k promptSend) = some (progression (t.clock + d) d k, t') := by
  induction k generalizing t with
  | zero => exact ⟨t, rfl⟩
  | succ k ih =>
    obtain ⟨next, hstep, hnext, hopen', hclock', htime⟩ :=
      h.step_promptSend hopen hqps fun _ => hclock
    have hnow : next.clock = t.clock + d := by
      rw [htime, ← hclock]
      split_ifs at hd ⊢ with hpos
      · rw [hd]
      · rw [hd.1, hd.2]
        rfl
    have hd' : if 0 < next.clock then d = config.distance else d = 0 ∧ config.minJitterMs = 0 := by
      grind
    obtain ⟨last, hrun⟩ := ih hnext hopen' hclock' hd'
    rw [← hnow]
    exact ⟨last, run_cons hstep hrun⟩

/-! ## The rate -/

/-- From the configuration on, a run does not divide by zero, and no second of it has more
queries than the limit. -/
def KeepsLimit (config : DnsTunnelConfig) (clock : Nat) (calls : List DnsTunnelCall) : Prop :=
  ∃ times t', ((DnsTunnel.new clock).configure config).run calls = some (times, t') ∧
    Paced 1000 config.maxQps.toNat times

/-- The call to open the transport, with a socket and an address. -/
def openCall : DnsTunnelCall := .tunnelOpen true fun _ => some 0x08080808

/-- That many distances fill a second if there is jitter, or the interval is not rounded. -/
theorem le_mul_distance (hqps : config.maxQps ≠ 0)
    (h : config.minJitterMs ≠ 0 ∨ config.maxQps.toNat ∣ 1000) :
    1000 ≤ config.maxQps.toNat * config.distance := by
  have hpos : 0 < config.maxQps.toNat :=
    Nat.pos_of_ne_zero fun hzero => hqps (UInt32.toNat_inj.mp hzero)
  rw [DnsTunnelConfig.distance, Nat.mul_add]
  rcases h with hjitter | hdvd
  · have hone : 1 ≤ config.minJitterMs.toNat :=
      Nat.pos_of_ne_zero fun hzero => hjitter (UInt32.toNat_inj.mp hzero)
    have hround := Nat.div_add_mod 1000 config.maxQps.toNat
    have hmod := Nat.mod_lt 1000 hpos
    have hmul := Nat.mul_le_mul_left config.maxQps.toNat hone
    omega
  · rw [Nat.mul_div_cancel' hdvd]
    exact Nat.le_add_right _ _

/-- Once it is open, queries are recorded at times as close as they can be. -/
theorem run_open_promptSends (hqps : config.maxQps ≠ 0) {clock d : Nat}
    (hd : if 0 < clock + config.minJitterMs.toNat then d = config.distance
      else d = 0 ∧ config.minJitterMs = 0) (k : Nat) :
    ∃ t', ((DnsTunnel.new clock).configure config).run
        (openCall :: promptSend :: List.replicate k promptSend) =
      some (progression (clock + config.minJitterMs.toNat) d (k + 1), t') := by
  set start := (DnsTunnel.new clock).configure config
  have hopened := (runsWith_configure config clock).dnsTunnelOpen true fun _ => some 0x08080808
  obtain ⟨next, hstep, hnext, hopen, hclock, htime⟩ :=
    hopened.1.step_promptSend rfl hqps (fun hpos => absurd hpos (Nat.lt_irrefl 0))
  have hfirst : next.clock = clock + config.minJitterMs.toNat := htime
  obtain ⟨last, hrun⟩ := hnext.run_promptSends hopen hqps hclock (by rwa [hfirst]) k
  have hcall : start.step openCall =
      some ([], (start.dnsTunnelOpen true fun _ => some 0x08080808).2) := rfl
  rw [← hfirst]
  exact ⟨last, run_cons hcall (run_cons hstep hrun)⟩

/-- The limit is kept in every run exactly if it is not zero, and there is jitter, or the limit
divides a second and the clock does not read zero. -/
theorem keepsLimit_iff (config : DnsTunnelConfig) (clock : Nat) :
    (∀ calls, KeepsLimit config clock calls) ↔
      config.maxQps ≠ 0 ∧
        (config.minJitterMs ≠ 0 ∨ config.maxQps.toNat ∣ 1000 ∧ clock ≠ 0) := by
  constructor
  · intro hall
    have hqps : config.maxQps ≠ 0 := by
      intro hzero
      obtain ⟨times, t', hrun, -⟩ := hall [openCall, promptSend]
      have hnone : ((DnsTunnel.new clock).configure config).run [openCall, promptSend] = none := by
        simp [DnsTunnel.run, DnsTunnel.step, openCall, promptSend, DnsTunnel.dnsTunnelOpen,
          DnsTunnel.configure, DnsTunnel.new, DnsTunnel.dnsTunnelSend, RateLimiter.enforceRateLimit,
          hzero]
      rw [hnone] at hrun
      cases hrun
    refine ⟨hqps, ?_⟩
    by_contra hnot
    obtain ⟨hjitter, hrest⟩ := not_or.mp hnot
    have hjitter := not_ne_iff.mp hjitter
    have hzero : config.minJitterMs.toNat = 0 := congrArg UInt32.toNat hjitter
    -- The queries are at the interval, or all at time zero.
    obtain ⟨d, hd, hrate⟩ : ∃ d, (if 0 < clock + config.minJitterMs.toNat then d = config.distance
        else d = 0 ∧ config.minJitterMs = 0) ∧ config.maxQps.toNat * d < 1000 := by
      rw [hzero, Nat.add_zero]
      rcases Nat.eq_zero_or_pos clock with rfl | hclock
      · exact ⟨0, ⟨rfl, hjitter⟩, by rw [Nat.mul_zero]; decide⟩
      · refine ⟨config.distance, by rw [if_pos hclock], ?_⟩
        have hdvd : ¬ config.maxQps.toNat ∣ 1000 := fun hdvd => hrest ⟨hdvd, by omega⟩
        rw [DnsTunnelConfig.distance, hzero, Nat.add_zero]
        exact Nat.lt_of_le_of_ne (Nat.mul_div_le _ _) fun heq => hdvd ⟨_, heq.symm⟩
    obtain ⟨t', hrun⟩ := run_open_promptSends hqps hd config.maxQps.toNat
    obtain ⟨times, last, hrun', hpaced⟩ := hall _
    rw [hrun, Option.some.injEq, Prod.mk.injEq] at hrun'
    rw [← hrun'.1] at hpaced
    exact not_paced_progression hrate hpaced
  · rintro ⟨hqps, hrest⟩ calls
    have hpos : 0 < clock + config.minJitterMs.toNat := by
      rcases hrest with hjitter | ⟨-, hclock⟩
      · have := mt UInt32.toNat_inj.mp hjitter
        exact Nat.add_pos_right _ (Nat.pos_of_ne_zero this)
      · omega
    obtain ⟨times, t', hrun, hspaced, -⟩ :=
      (runsWith_configure config clock).run hqps hpos calls
    exact ⟨times, t', hrun, hspaced.paced (le_mul_distance hqps (hrest.imp_right And.left))⟩

/-- Three queries a second without jitter. -/
def threeQps : DnsTunnelConfig := { DnsTunnelConfig.default with
  maxQps := 3
  minJitterMs := 0
  maxJitterMs := 0 }

/-- There are four queries within a second. -/
theorem not_keepsLimit_threeQps :
    ¬ KeepsLimit threeQps 1000 (openCall :: List.replicate 4 promptSend) := by
  rintro ⟨times, t', hrun, hpaced⟩
  have htimes : (((DnsTunnel.new 1000).configure threeQps).run
      (openCall :: List.replicate 4 promptSend)).map Prod.fst = some [1000, 1333, 1666, 1999] := by
    decide +kernel
  rw [hrun, Option.map_some, Option.some.injEq] at htimes
  have hfour := hpaced 1000
  rw [show times = [1000, 1333, 1666, 1999] from htimes] at hfour
  exact absurd hfour (by decide)

end Federated.Transport
