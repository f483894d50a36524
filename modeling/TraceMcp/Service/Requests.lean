import TraceMcp.Lib.JsonText
import TraceMcp.Service.Carried

/-!
# Request ids as idempotency keys

`start_request_hash` of `src/service.rs` with the JSON serde derives for what
it hashes, and the answer `handle_start` gives to a request id it knows. What a
request asks for is `effective`; what the hash tells apart is `hashed`
(`requestBytes_eq_iff`), which has no workload and not the mark of a filled-in
AUX size. `start_idempotent_iff` follows a request through a run and says when
its id is a key for the whole of it.
-/

namespace TraceMcp

open TraceMcp.Lib
open Json (Fields ofNat ofString ofOption optional)

/-! ## What serde derives -/

/-- A list that is left out where it is empty. -/
def unlessEmpty {α : Type} (f : List α → Json) : List α → Option Json
  | [] => none
  | a :: l => some (f (a :: l))

/-- `TimingProfile::as_str`, and its serialized name. -/
def TimingProfile.asStr : TimingProfile → String
  | .lowBandwidth => "low_bandwidth"
  | .balanced => "balanced"
  | .detailed => "detailed"

/-- `AddressFilterKind::as_str`, and its serialized name. -/
def AddressFilterKind.asStr : AddressFilterKind → String
  | .filter => "filter"
  | .tracestop => "tracestop"
  | .start => "start"
  | .stop => "stop"

def AddressFilter.toJson (f : AddressFilter) : Json :=
  .obj ([("kind", ofString f.kind.asStr), ("symbol", ofString f.symbol)] ++
    optional "image" (f.image.map ofString))

def IntelPtConfig.fields (c : IntelPtConfig) : Fields :=
  [("timing", ofString c.timing.asStr)] ++
  (optional "aux_bytes_per_buffer" (c.auxBytesPerBuffer.map ofNat) ++
  ([("max_total_aux_bytes", ofNat c.maxTotalAuxBytes), ("max_capture_ms", ofNat c.maxCaptureMs)] ++
  (optional "cpus" (c.cpus.map fun cpus => .arr (cpus.map ofNat)) ++
  optional "address_filters"
    (unlessEmpty (fun filters => .arr (filters.map AddressFilter.toJson)) c.addressFilters))))

def IntelPtConfig.toJson (c : IntelPtConfig) : Json := .obj c.fields

/-- The configuration as it is serialized. -/
def IntelPtConfig.unmarked (c : IntelPtConfig) : IntelPtConfig := { c with auxBytesAuto := false }

def Target.fields : Target → Fields
  | .launch argv cwd env =>
    [("kind", ofString "launch"), ("argv", .arr (argv.map ofString)),
      ("cwd", ofOption ofString cwd)] ++
    optional "env" (unlessEmpty (fun env => .obj (env.map fun e => (e.1, ofString e.2))) env)
  | .attach pid => [("kind", ofString "attach"), ("pid", ofNat pid)]

def Target.toJson (t : Target) : Json := .obj t.fields

def Trigger.fields : Trigger → Fields
  | .symbol name hits =>
    [("kind", ofString "symbol"), ("symbol", ofString name), ("hits", ofNat hits)]
  | .fifo => [("kind", ofString "fifo")]

def Trigger.toJson (t : Trigger) : Json := .obj t.fields

section Injective

theorem unlessEmpty_inj {α : Type} {f : List α → Json} (hf : ∀ l l', f l = f l' → l = l')
    {l l' : List α} (h : unlessEmpty f l = unlessEmpty f l') : l = l' := by
  cases l with
  | nil =>
    cases l' with
    | nil => rfl
    | cons => cases h
  | cons a l =>
    cases l' with
    | nil => cases h
    | cons b l' => exact hf _ _ (Option.some.inj h)

theorem TimingProfile.asStr_inj : ∀ a b : TimingProfile, a.asStr = b.asStr → a = b := by
  intro a b
  cases a <;> cases b <;> decide

theorem AddressFilterKind.asStr_inj : ∀ a b : AddressFilterKind, a.asStr = b.asStr → a = b := by
  intro a b
  cases a <;> cases b <;> decide

theorem ofString_ne_null (s : String) : ofString s ≠ .null := by
  intro h
  cases h

theorem Trigger.toJson_ne_null (t : Trigger) : t.toJson ≠ .null := by
  intro h
  cases h

theorem optionMap_inj {α : Type} {f : α → Json} (hf : ∀ a b, f a = f b → a = b) {a b : Option α}
    (h : a.map f = b.map f) : a = b :=
  Option.map_injective (fun a b => hf a b) h

/-- Objects with one list of fields have each field in common. -/
theorem fields_congr {m m' : Fields} (h : m = m') (k : String) : Fields.get k m = Fields.get k m' := by
  rw [h]

theorem AddressFilter.toJson_inj (a b : AddressFilter) (h : a.toJson = b.toJson) : a = b := by
  have hget := fields_congr (Json.obj.inj h)
  have hkind := hget "kind"
  have hsymbol := hget "symbol"
  have himage := hget "image"
  simp [Fields.get, Json.get_optional] at hkind hsymbol himage
  obtain ⟨ka, sa, ia⟩ := a
  obtain ⟨kb, sb, ib⟩ := b
  obtain rfl := AddressFilterKind.asStr_inj ka kb (Json.ofString_inj hkind)
  obtain rfl := Json.ofString_inj hsymbol
  obtain rfl := optionMap_inj (fun _ _ => Json.ofString_inj) himage
  rfl

theorem IntelPtConfig.toJson_inj {a b : IntelPtConfig} (h : a.toJson = b.toJson) :
    a.unmarked = b.unmarked := by
  have hget := fields_congr (Json.obj.inj h)
  have htiming := hget "timing"
  have haux := hget "aux_bytes_per_buffer"
  have htotal := hget "max_total_aux_bytes"
  have hcapture := hget "max_capture_ms"
  have hcpus := hget "cpus"
  have hfilters := hget "address_filters"
  simp [fields, Fields.get, Json.get_append, Json.get_optional] at htiming haux htotal
  simp [fields, Fields.get, Json.get_append, Json.get_optional] at hcapture hcpus hfilters
  obtain ⟨ta, xa, auto, ma, ca, pa, fa⟩ := a
  obtain ⟨tb, xb, auto', mb, cb, pb, fb⟩ := b
  obtain rfl := TimingProfile.asStr_inj ta tb (Json.ofString_inj htiming)
  obtain rfl := optionMap_inj (fun _ _ => Json.ofNat_inj) haux
  obtain rfl := Json.ofNat_inj htotal
  obtain rfl := Json.ofNat_inj hcapture
  obtain rfl := optionMap_inj (fun _ _ => Json.arr_map_inj fun _ _ => Json.ofNat_inj) hcpus
  obtain rfl := unlessEmpty_inj (fun _ _ => Json.arr_map_inj AddressFilter.toJson_inj) hfilters
  rfl

theorem envFields_inj {l l' : List (String × String)}
    (h : Json.obj (l.map fun e => (e.1, ofString e.2)) = .obj (l'.map fun e => (e.1, ofString e.2))) :
    l = l' := by
  have hpair : Function.Injective fun e : String × String => (e.1, ofString e.2) := by
    intro e e' heq
    obtain ⟨hk, hv⟩ := Prod.mk.inj heq
    exact Prod.ext hk (Json.ofString_inj hv)
  exact List.map_injective_iff.mpr hpair (Json.obj.inj h)

theorem Target.toJson_inj {a b : Target} (h : a.toJson = b.toJson) : a = b := by
  have hget := fields_congr (Json.obj.inj h)
  have hkind := hget "kind"
  cases a with
  | launch argv cwd env =>
    cases b with
    | launch argv' cwd' env' =>
      have hargv := hget "argv"
      have hcwd := hget "cwd"
      have henv := hget "env"
      simp [fields, Fields.get, Json.get_optional] at hargv hcwd henv
      obtain rfl := Json.arr_map_inj (fun _ _ => Json.ofString_inj) (congrArg Json.arr hargv)
      obtain rfl := Json.ofOption_inj (fun _ _ => Json.ofString_inj) ofString_ne_null hcwd
      obtain rfl := unlessEmpty_inj (fun _ _ => envFields_inj) henv
      rfl
    | attach pid => exact absurd (Json.ofString_inj (Option.some.inj hkind)) (by decide)
  | attach pid =>
    cases b with
    | launch argv cwd env => exact absurd (Json.ofString_inj (Option.some.inj hkind)) (by decide)
    | attach pid' =>
      have hpid := hget "pid"
      simp [fields, Fields.get] at hpid
      rw [Json.ofNat_inj hpid]

theorem Trigger.toJson_inj (a b : Trigger) (h : a.toJson = b.toJson) : a = b := by
  have hget := fields_congr (Json.obj.inj h)
  have hkind := hget "kind"
  cases a with
  | symbol name hits =>
    cases b with
    | symbol name' hits' =>
      have hsymbol := hget "symbol"
      have hhits := hget "hits"
      simp [fields, Fields.get] at hsymbol hhits
      rw [Json.ofString_inj hsymbol, Json.ofNat_inj hhits]
    | fifo => exact absurd (Json.ofString_inj (Option.some.inj hkind)) (by decide)
  | fifo =>
    cases b with
    | symbol name hits => exact absurd (Json.ofString_inj (Option.some.inj hkind)) (by decide)
    | fifo => rfl

end Injective

section Digital

theorem digital_ofString (s : String) : Json.Digital (ofString s) := trivial

theorem AddressFilter.toJson_digital (f : AddressFilter) : Json.Digital f.toJson := by
  refine Json.digitalFields_append ⟨trivial, trivial, trivial⟩ (Json.digitalFields_optional ?_)
  intro w hw
  obtain ⟨s, -, rfl⟩ := Option.map_eq_some_iff.mp hw
  trivial

theorem IntelPtConfig.toJson_digital (c : IntelPtConfig) : Json.Digital c.toJson := by
  refine Json.digitalFields_append ⟨trivial, trivial⟩ ?_
  refine Json.digitalFields_append (Json.digitalFields_optional ?_) ?_
  · intro w hw
    obtain ⟨n, -, rfl⟩ := Option.map_eq_some_iff.mp hw
    exact Json.digital_ofNat n
  refine Json.digitalFields_append ⟨Json.digital_ofNat _, Json.digital_ofNat _, trivial⟩ ?_
  refine Json.digitalFields_append (Json.digitalFields_optional ?_) (Json.digitalFields_optional ?_)
  · intro w hw
    obtain ⟨cpus, -, rfl⟩ := Option.map_eq_some_iff.mp hw
    exact Json.digitalItems_map Json.digital_ofNat cpus
  · intro w hw
    cases hf : c.addressFilters with
    | nil =>
      rw [hf] at hw
      cases hw
    | cons f filters =>
      rw [hf] at hw
      obtain rfl := Option.some.inj hw
      exact Json.digitalItems_map AddressFilter.toJson_digital (f :: filters)

theorem Target.toJson_digital (t : Target) : Json.Digital t.toJson := by
  cases t with
  | launch argv cwd env =>
    refine Json.digitalFields_append ⟨trivial, Json.digitalItems_map digital_ofString argv, ?_,
      trivial⟩ (Json.digitalFields_optional ?_)
    · cases cwd <;> trivial
    · intro w hw
      cases env with
      | nil => cases hw
      | cons e env =>
        obtain rfl := Option.some.inj hw
        show Json.DigitalFields ((e :: env).map fun e => (e.1, ofString e.2))
        induction e :: env with
        | nil => trivial
        | cons e env ih => exact ⟨trivial, ih⟩
  | attach pid => exact ⟨trivial, Json.digital_ofNat pid, trivial⟩

theorem Trigger.toJson_digital (t : Trigger) : Json.Digital t.toJson := by
  cases t with
  | symbol name hits => exact ⟨trivial, trivial, Json.digital_ofNat hits, trivial⟩
  | fifo => exact ⟨trivial, trivial⟩

end Digital

/-! ## The hash -/

/-- `store::cache_key`: each part, with a NUL behind it. `digest` is the hex
SHA-256 of its input. -/
def cacheKeyBytes (parts : List (List Char)) : ByteArray :=
  (String.ofList (parts.flatMap fun p => p ++ [Char.ofNat 0])).toUTF8

def cacheKey (digest : ByteArray → String) (parts : List (List Char)) : String :=
  "sha256:" ++ digest (cacheKeyBytes parts)

namespace StartRequest

/-- What `start_request_hash` hashes. -/
def parts (req : StartRequest) : List (List Char) :=
  [req.requestId.raw.toList, Json.text req.target.toJson, Json.text req.config.toJson,
    Text.decimal (req.afterMs.getD 0), Json.text (ofOption Trigger.toJson req.trigger),
    Text.decimal (req.tailMs.getD 0)]

end StartRequest

/-- `start_request_hash`. -/
def startRequestHash (digest : ByteArray → String) (req : StartRequest) : String :=
  cacheKey digest req.parts

namespace StartRequest

/-- The request `normalize_capture_bound` leaves. -/
def normalized (req : StartRequest) : StartRequest :=
  { req with config := { req.config with
      maxCaptureMs := max (max req.config.maxCaptureMs (req.afterMs.getD 0)) (req.tailMs.getD 0) } }

/-- What the request asks for: the cap raised to the stop times, no tail the
same as one of 0, and an AUX size that is left out always filled in. -/
def effective (req : StartRequest) : StartRequest :=
  { req.normalized with
    config := { req.normalized.config with
      auxBytesAuto := req.config.auxBytesAuto || req.config.auxBytesPerBuffer.isNone }
    tailMs := some (req.tailMs.getD 0) }

/-- What the hash tells apart: not the workload, and not the mark of a filled-in
AUX size. -/
def hashed (req : StartRequest) : StartRequest :=
  { req.effective with
    config := req.effective.config.unmarked
    workload := none }

variable {a b req req' : StartRequest} {pageSize : Nat}

theorem check_ok (h : req.check pageSize = .ok req') :
    req' = req.normalized ∧ req.afterMs ≠ some 0 := by
  unfold check at h
  obtain ⟨-, -, h⟩ := bind_ok.mp h
  obtain ⟨-, -, h⟩ := bind_ok.mp h
  obtain ⟨config, hconfig, h⟩ := bind_ok.mp h
  obtain ⟨-, -, h⟩ := bind_ok.mp h
  unfold normalizeCaptureBound at hconfig
  split at hconfig
  next => cases hconfig
  next hafter =>
    cases hconfig
    cases h
    exact ⟨rfl, hafter⟩

theorem nul_notMem_decimal (n : Nat) : Char.ofNat 0 ∉ Text.decimal n := by
  intro hmem
  cases Text.decimal_isDigit n _ hmem

theorem digital_trigger (t : Option Trigger) : Json.Digital (ofOption Trigger.toJson t) := by
  cases t with
  | none => trivial
  | some t => exact t.toJson_digital

/-- Requests of one id that are hashed alike, part for part. -/
theorem parts_inj (hid : a.requestId = b.requestId)
    (h : cacheKeyBytes a.parts = cacheKeyBytes b.parts) :
    a.target = b.target ∧ a.config.toJson = b.config.toJson ∧
      a.afterMs.getD 0 = b.afterMs.getD 0 ∧ a.trigger = b.trigger ∧
      a.tailMs.getD 0 = b.tailMs.getD 0 := by
  have hchars := String.ofList_inj.mp (String.toByteArray_inj.mp h)
  unfold parts at hchars
  simp only [List.flatMap_cons, List.append_assoc, List.singleton_append] at hchars
  rw [hid] at hchars
  have hrest := (List.cons.inj (List.append_cancel_left hchars)).2
  -- no part after the id has a NUL of its own
  obtain ⟨htarget, hrest⟩ := Text.mark_append_inj (Json.nul_notMem_text a.target.toJson_digital)
    (Json.nul_notMem_text b.target.toJson_digital) hrest
  obtain ⟨hconfig, hrest⟩ := Text.mark_append_inj (Json.nul_notMem_text a.config.toJson_digital)
    (Json.nul_notMem_text b.config.toJson_digital) hrest
  obtain ⟨hafter, hrest⟩ := Text.mark_append_inj (nul_notMem_decimal _) (nul_notMem_decimal _) hrest
  obtain ⟨htrigger, hrest⟩ := Text.mark_append_inj (Json.nul_notMem_text (digital_trigger a.trigger))
    (Json.nul_notMem_text (digital_trigger b.trigger)) hrest
  obtain ⟨htail, -⟩ := Text.mark_append_inj (nul_notMem_decimal _) (nul_notMem_decimal _) hrest
  refine ⟨?_, ?_, Text.decimal_inj hafter, ?_, Text.decimal_inj htail⟩
  · exact Target.toJson_inj (Json.text_inj a.target.toJson_digital b.target.toJson_digital htarget)
  · exact Json.text_inj a.config.toJson_digital b.config.toJson_digital hconfig
  · exact Json.ofOption_inj Trigger.toJson_inj Trigger.toJson_ne_null
      (Json.text_inj (digital_trigger a.trigger) (digital_trigger b.trigger) htrigger)

/-- A stop time that passes the check is told by its default. -/
theorem afterMs_inj {x y : Option Nat} (hx : x ≠ some 0) (hy : y ≠ some 0)
    (h : x.getD 0 = y.getD 0) : x = y := by
  cases x with
  | none =>
    cases y with
    | none => rfl
    | some m => exact absurd (congrArg some h.symm) hy
  | some n =>
    cases y with
    | none => exact absurd (congrArg some h) hx
    | some m => exact congrArg some h

theorem hashed_congr (h : a.effective = b.effective) : a.hashed = b.hashed := by
  unfold hashed
  rw [h]

/-- Checked requests of one id are hashed alike exactly when they ask for the
same but for the workload and the mark of a filled-in AUX size. -/
theorem requestBytes_eq_iff (hid : a.requestId = b.requestId) (ha : a.afterMs ≠ some 0)
    (hb : b.afterMs ≠ some 0) :
    cacheKeyBytes a.normalized.parts = cacheKeyBytes b.normalized.parts ↔ a.hashed = b.hashed := by
  constructor
  · intro h
    obtain ⟨htarget, hconfig, hafter, htrigger, htail⟩ := @parts_inj a.normalized b.normalized hid h
    have hconfig := IntelPtConfig.toJson_inj hconfig
    have hafter : a.normalized.afterMs = b.normalized.afterMs := afterMs_inj ha hb hafter
    have hhashed : ∀ r : StartRequest, r.hashed = ⟨r.requestId, r.normalized.target,
        r.normalized.config.unmarked, r.normalized.afterMs, none, r.normalized.trigger,
        some (r.normalized.tailMs.getD 0)⟩ := fun r => rfl
    rw [hhashed a, hhashed b, hid, htarget, hconfig, hafter, htrigger, htail]
  · intro h
    -- the parts can be read off the hashed request
    have hparts : ∀ r : StartRequest, r.normalized.parts = r.hashed.parts := fun r => rfl
    rw [hparts a, hparts b, h]

end StartRequest

end TraceMcp

namespace TraceMcp.Service

open TraceMcp.Lib Coord

/-! ## Known requests -/

/-- The request has a session, with this id and hash. -/
def Knows (c : Coord) (rid : RequestId) (id : SessionId) (hash : String) : Prop :=
  ∃ k s, c.byRequest.get rid = some k ∧ c.sessions.get k = some s ∧ s.id = id ∧
    s.requestHash = hash

/-- A request id is a key for the whole request: a valid request is answered
with the session of its id exactly when it agrees with what that session was
started for, and nothing changes; otherwise it is refused. -/
structure Idempotent (c : Coord) (env : StartEnv) (req : StartRequest) (id : SessionId)
    (agree : Prop) : Prop where
  invalid : ∀ e, req.check env.pageSize = .error e → c.handleStart env req = .error e
  returned : ∀ req', req.check env.pageSize = .ok req' →
    ((∃ phase, c.handleStart env req = .ok (c, ⟨id, phase⟩, [])) ↔ agree)
  refused : ∀ req', req.check env.pageSize = .ok req' → ¬ agree →
    c.handleStart env req = .error (.invalidArgument "request_id reused with a different body")

section Known

variable {c c' : Coord} {rid : RequestId} {id : SessionId} {hash : String} {env : StartEnv}
  {req req' : StartRequest}

theorem Knows.carry (h : Knows c rid id hash) (hcarry : Carries c c') : Knows c' rid id hash := by
  obtain ⟨k, s, hk, hs, hid, hhash⟩ := h
  rcases hcarry.sessions k with ⟨hnone, -⟩ | ⟨t, s', ht, hs', hsame⟩
  · rw [hnone] at hs
    cases hs
  · obtain rfl := Option.some.inj (hs.symm.trans ht)
    refine ⟨k, s', ?_, hs', hsame.id.trans hid, hsame.requestHash.trans hhash⟩
    rw [hcarry.requests, hk]

/-- A session of another request. -/
theorem Knows.add (h : Knows c rid id hash) {s : Session} (hreq : s.requestId ≠ rid)
    (hnew : c.sessions.get s.id = none) : Knows (c.addSession s) rid id hash := by
  obtain ⟨k, t, hk, ht, hid, hhash⟩ := h
  refine ⟨k, t, ?_, ?_, hid, hhash⟩
  · rw [show (c.addSession s).byRequest.get rid = _ from FastMap.get_insert ..,
      if_neg fun heq => hreq heq.symm, hk]
  · rw [show (c.addSession s).sessions.get k = _ from FastMap.get_insert .., if_neg, ht]
    rintro rfl
    rw [hnew] at ht
    cases ht

theorem Knows.unique {hash' : String} (h : Knows c rid id hash) (h' : Knows c rid id hash') :
    hash = hash' := by
  obtain ⟨k, s, hk, hs, -, rfl⟩ := h
  obtain ⟨k', s', hk', hs', -, rfl⟩ := h'
  obtain rfl := Option.some.inj (hk.symm.trans hk')
  rw [Option.some.inj (hs.symm.trans hs')]

theorem Knows.new (c : Coord) (s : Session) :
    Knows (c.addSession s) s.requestId s.id s.requestHash :=
  ⟨s.id, s, FastMap.get_insert_self .., FastMap.get_insert_self .., rfl, rfl⟩

theorem handleStart_invalid {e : Error} (h : req.check env.pageSize = .error e) :
    c.handleStart env req = .error e := by
  unfold handleStart
  rw [h]
  rfl

/-- The answer to a request whose id has a session. -/
theorem handleStart_known (hcheck : req.check env.pageSize = .ok req')
    (h : Knows c req'.requestId id hash) :
    (hash ≠ "" ∧ hash ≠ env.requestHash req' ∧ c.handleStart env req =
      .error (.invalidArgument "request_id reused with a different body")) ∨
    ((hash = "" ∨ hash = env.requestHash req') ∧
      ∃ phase, c.handleStart env req = .ok (c, ⟨id, phase⟩, [])) := by
  obtain ⟨k, s, hk, hs, rfl, rfl⟩ := h
  have hstart : c.handleStart env req =
      if s.requestHash ≠ "" ∧ s.requestHash ≠ env.requestHash req' then
        .error (.invalidArgument "request_id reused with a different body")
      else .ok (c, ⟨s.id, s.phase⟩, []) := by
    unfold handleStart
    rw [hcheck]
    dsimp only [bind, Except.bind]
    rw [hk]
    dsimp only
    rw [hs]
  rw [hstart]
  by_cases hdiffers : s.requestHash ≠ "" ∧ s.requestHash ≠ env.requestHash req'
  · rw [if_pos hdiffers]
    exact .inl ⟨hdiffers.1, hdiffers.2, rfl⟩
  · rw [if_neg hdiffers]
    refine .inr ⟨?_, s.phase, rfl⟩
    by_cases hempty : s.requestHash = ""
    · exact .inl hempty
    · exact .inr (not_not.mp fun hne => hdiffers ⟨hempty, hne⟩)

end Known

theorem cacheKey_inj {digest : ByteArray → String} {p q : List (List Char)}
    (hfree : digest (cacheKeyBytes p) = digest (cacheKeyBytes q) → cacheKeyBytes p = cacheKeyBytes q) :
    cacheKey digest p = cacheKey digest q ↔ cacheKeyBytes p = cacheKeyBytes q := by
  constructor
  · intro h
    have hlist := congrArg String.toList h
    unfold cacheKey at hlist
    rw [String.toList_append, String.toList_append] at hlist
    exact hfree (String.toList_inj.mp (List.append_cancel_left hlist))
  · intro h
    unfold cacheKey
    rw [h]

namespace System

variable {s s' : System} {dec : Nat → Nat} {msg : Msg} {rid : RequestId} {id : SessionId}
  {hash : String}

theorem handle_knows (dec : Nat → Nat) (hen : s.Enabled msg) (h : Knows s.coord rid id hash) :
    Knows (s.handle dec msg).coord rid id hash := by
  rcases handle_carries dec s msg with hcarry | ⟨env, req, req', config, rfl, -, hnone, hadd⟩
  · exact h.carry hcarry
  · rw [hadd]
    refine h.add ?_ hen
    rintro rfl
    obtain ⟨k, -, hk, -⟩ := h
    cases hnone.symm.trans hk

theorem run_knows {P : System → Msg → Prop} (hrun : Run dec P s s')
    (h : Knows s.coord rid id hash) : Knows s'.coord rid id hash := by
  induction hrun with
  | refl => exact h
  | tail _ hstep ih =>
    obtain ⟨msg, hen, -, rfl⟩ := hstep
    exact handle_knows dec hen ih

/-- What an answered start leaves behind: the session it named, which has no
hash or that of the request. -/
theorem start_knows {env : StartEnv} {req : StartRequest} {c' : Coord} {resp : StartResponse}
    {tasks : List CaptureTask} (h : s.coord.handleStart env req = .ok (c', resp, tasks)) :
    ∃ req', req.check env.pageSize = .ok req' ∧ ∃ hash,
      (hash = "" ∨ hash = env.requestHash req') ∧
        Knows (s.handle dec (.start env req)).coord req.requestId resp.sessionId hash := by
  obtain ⟨req', hcheck, hcases⟩ := handleStart_inv h
  have hrid : req'.requestId = req.requestId := by
    rw [(StartRequest.check_ok hcheck).1]
    rfl
  refine ⟨req', hcheck, ?_⟩
  rw [handle, h]
  rw [← hrid]
  obtain ⟨rfl, -, t, hanswer⟩ | ⟨-, config, -, rfl, rfl, -⟩ := hcases
  · obtain ⟨k, hk, ht⟩ := hanswer.known
    refine ⟨t.requestHash, hanswer.hash, k, t, hk, ht, ?_, rfl⟩
    rw [hanswer.resp]
  · exact ⟨_, .inr rfl, Knows.new s.coord (newSession env req' (env.requestHash req') config)⟩

/-- A start is answered; later in the run another one comes with its id. The id
is a key exactly when no hash, or the hash of both, means that they agree. -/
theorem start_idempotent_iff {digest : ByteArray → String} {env₁ env₂ : StartEnv}
    {req₁ req₂ : StartRequest} {c₁ : Coord} {resp₁ : StartResponse} {tasks₁ : List CaptureTask}
    (hhash₁ : env₁.requestHash = startRequestHash digest)
    (hhash₂ : env₂.requestHash = startRequestHash digest)
    (hfirst : s.coord.handleStart env₁ req₁ = .ok (c₁, resp₁, tasks₁))
    (hrun : Run saturatingPred Any (s.handle saturatingPred (.start env₁ req₁)) s')
    (hid : req₂.requestId = req₁.requestId)
    (hfree : digest (cacheKeyBytes req₁.normalized.parts) =
        digest (cacheKeyBytes req₂.normalized.parts) →
      cacheKeyBytes req₁.normalized.parts = cacheKeyBytes req₂.normalized.parts) :
    Idempotent s'.coord env₂ req₂ resp₁.sessionId (req₁.effective = req₂.effective) ↔
      ∀ req', req₂.check env₂.pageSize = .ok req' →
        Knows s'.coord req₁.requestId resp₁.sessionId "" ∨ req₁.hashed = req₂.hashed →
          req₁.effective = req₂.effective := by
  obtain ⟨req₁', hcheck₁, hash, hhash, hstarted⟩ := @start_knows s saturatingPred _ _ _ _ _ hfirst
  have hknows := run_knows hrun hstarted
  obtain ⟨rfl, hafter₁⟩ := StartRequest.check_ok hcheck₁
  -- when the second request passes for the first
  have hpasses : ∀ req', req₂.check env₂.pageSize = .ok req' →
      ((hash = "" ∨ hash = env₂.requestHash req') ↔
        (Knows s'.coord req₁.requestId resp₁.sessionId "" ∨ req₁.hashed = req₂.hashed)) := by
    intro req' hcheck₂
    obtain ⟨rfl, hafter₂⟩ := StartRequest.check_ok hcheck₂
    have hsame : env₁.requestHash req₁.normalized = env₂.requestHash req₂.normalized ↔
        req₁.hashed = req₂.hashed := by
      rw [hhash₁, hhash₂]
      exact (cacheKey_inj hfree).trans (StartRequest.requestBytes_eq_iff hid.symm hafter₁ hafter₂)
    constructor
    · rintro (rfl | hsecond)
      · exact .inl hknows
      · rcases hhash with rfl | rfl
        · exact .inl hknows
        · exact .inr (hsame.mp hsecond)
    · rintro (hnone | hhashed)
      · exact .inl (hknows.unique hnone)
      · rcases hhash with rfl | rfl
        · exact .inl rfl
        · exact .inr (hsame.mpr hhashed)
  have hanswer : ∀ req', req₂.check env₂.pageSize = .ok req' →
      ((hash ≠ "" ∧ hash ≠ env₂.requestHash req' ∧ s'.coord.handleStart env₂ req₂ =
        .error (.invalidArgument "request_id reused with a different body")) ∨
      ((hash = "" ∨ hash = env₂.requestHash req') ∧
        ∃ phase, s'.coord.handleStart env₂ req₂ = .ok (s'.coord, ⟨resp₁.sessionId, phase⟩, []))) := by
    intro req' hcheck₂
    have hrid : req'.requestId = req₁.requestId := by
      rw [(StartRequest.check_ok hcheck₂).1, ← hid]
      rfl
    apply handleStart_known hcheck₂
    rw [hrid]
    exact hknows
  constructor
  · intro hkey req' hcheck₂ hpass
    rcases hanswer req' hcheck₂ with ⟨hne, hne', -⟩ | ⟨-, hok⟩
    · rcases (hpasses req' hcheck₂).mpr hpass with heq | heq
      · exact absurd heq hne
      · exact absurd heq hne'
    · exact (hkey.returned req' hcheck₂).mp hok
  · intro hagree
    refine ⟨fun e => handleStart_invalid, ?_, ?_⟩
    · intro req' hcheck₂
      rcases hanswer req' hcheck₂ with ⟨hne, hne', herror⟩ | ⟨hpass, hok⟩
      · refine iff_of_false ?_ fun heq => ?_
        · rintro ⟨phase, hok⟩
          rw [herror] at hok
          cases hok
        · have hhashed : req₁.hashed = req₂.hashed := StartRequest.hashed_congr heq
          rcases (hpasses req' hcheck₂).mpr (.inr hhashed) with heq | heq
          · exact hne heq
          · exact hne' heq
      · exact iff_of_true hok (hagree req' hcheck₂ ((hpasses req' hcheck₂).mp hpass))
    · intro req' hcheck₂ hdiffers
      rcases hanswer req' hcheck₂ with ⟨-, -, herror⟩ | ⟨hpass, -⟩
      · exact herror
      · exact absurd (hagree req' hcheck₂ ((hpasses req' hcheck₂).mp hpass)) hdiffers

/-! ### A client that comes again -/

/-- A start of one program. -/
def labelled (workload : Option WorkloadMeta) (tailMs : Option Nat) : StartRequest where
  requestId := ⟨"r"⟩
  target := .launch ["a"] none []
  config := .default
  afterMs := none
  workload := workload
  trigger := none
  tailMs := tailMs

/-- The digest of that request. -/
def labelledDigest (_ : ByteArray) : String :=
  "8eef084c626b9fe2245730da3d552618fbed2a6d67fd11da78baf2ec6be453d4"

def labelledEnv : StartEnv where
  pageSize := 4096
  requestHash := startRequestHash labelledDigest
  ensureBudget := .ok ()
  readyTopology := .ok { IntelPtConfig.default with
    auxBytesPerBuffer := some 4194304, auxBytesAuto := true }
  checkTarget := .ok ()
  sessionId := ⟨"s"⟩
  snapshotId := ⟨"t"⟩
  persist := .ok ()

/-- `start_idempotent_iff` where the second request asks for a tail of 0. -/
theorem start_idempotent_tail :
    Idempotent ((boot .default [] [] []).handle saturatingPred
      (.start labelledEnv (labelled none none))).coord labelledEnv (labelled none (some 0)) ⟨"s"⟩
      ((labelled none none).effective = (labelled none (some 0)).effective) := by
  have hfirst : ∃ c tasks, (boot .default [] [] []).coord.handleStart labelledEnv
      (labelled none none) = .ok (c, ⟨⟨"s"⟩, .starting⟩, tasks) := ⟨_, _, rfl⟩
  obtain ⟨c, tasks, hfirst⟩ := hfirst
  have henv : labelledEnv.requestHash = startRequestHash labelledDigest := rfl
  have hid : (labelled none (some 0)).requestId = (labelled none none).requestId := rfl
  apply (start_idempotent_iff henv henv hfirst .refl hid fun _ => rfl).mpr
  intro _ _ _
  rfl

/-- The same program under another label is answered with the first session. -/
theorem start_relabelled :
    ¬ ∀ (digest : ByteArray → String) (s s' : System) (env₁ env₂ : StartEnv)
      (req₁ req₂ : StartRequest) (c₁ : Coord) (resp₁ : StartResponse) (tasks₁ : List CaptureTask),
      env₁.requestHash = startRequestHash digest → env₂.requestHash = startRequestHash digest →
      s.coord.handleStart env₁ req₁ = .ok (c₁, resp₁, tasks₁) →
      Run saturatingPred Any (s.handle saturatingPred (.start env₁ req₁)) s' →
      req₂.requestId = req₁.requestId →
      (digest (cacheKeyBytes req₁.normalized.parts) =
          digest (cacheKeyBytes req₂.normalized.parts) →
        cacheKeyBytes req₁.normalized.parts = cacheKeyBytes req₂.normalized.parts) →
      Idempotent s'.coord env₂ req₂ resp₁.sessionId (req₁.effective = req₂.effective) := by
  intro h
  have hkey := h labelledDigest (boot .default [] [] []) _ labelledEnv labelledEnv
    (labelled none none) (labelled (some ⟨some "l", none⟩) none) _ _ _ rfl rfl rfl .refl rfl
    fun _ => rfl
  have hrefused := hkey.refused _ rfl (by decide)
  have hanswered : ((((boot .default [] [] []).handle saturatingPred
      (.start labelledEnv (labelled none none))).coord.handleStart labelledEnv
        (labelled (some ⟨some "l", none⟩) none)).isOk) = true := by decide +kernel
  rw [hrefused] at hanswered
  cases hanswered

end System

end TraceMcp.Service
