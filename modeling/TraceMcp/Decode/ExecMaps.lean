import TraceMcp.Decode.BlockCache
import TraceMcp.Decode.Native

/-!
# Mappings and exec

An exec replaces the address space of its process. The native decoder's own
mapping table follows that (`mappingsByPid` drops the process at an exec); the
reconstructor's does not, so an address may still resolve through a mapping
from before. `SinceExec` is the table that both would keep. An address resolves
as it does in that table exactly when every address a sample asks for is mapped
again since the exec, if it is mapped at all; the same is enough for blocks,
provided the block cache is current (`exec_respected`).
-/

namespace TraceMcp.Decode

open TraceMcp.Lib Reconstructor

/-- The mappings of each process since its last exec, and how many there have
been of all. What is kept of a mapping is up to the table. -/
structure SinceExec (α : Type) where
  count : Nat
  maps : FastMap Nat (List α)

/-- The table after one more record. -/
def SinceExec.step {α : Type} (entry : Nat → MmapEvent → α) (T : SinceExec α) :
    RawRecord → SinceExec α
  | .mmap m =>
    ⟨T.count + 1, T.maps.insert m.pid ((T.maps.get m.pid).getD [] ++ [entry T.count m])⟩
  | .task t => if t.kind = .exec then ⟨T.count, T.maps.erase t.pid⟩ else T
  | _ => T

/-- The table of a stream. -/
def sinceExec {α : Type} (entry : Nat → MmapEvent → α) (recs : List RawRecord) : SinceExec α :=
  recs.foldl (SinceExec.step entry) ⟨0, ∅⟩

/-- `mappings_by_pid`. -/
def mappingsByPid (pd : PerfData) : FastMap Nat (List (Nat × Nat × Nat × String)) :=
  pd.sideband.foldl (fun m s => match s with
    | .mmap pid _ _ start len pgoff true path =>
      m.insert pid ((FastMap.get m pid).getD [] ++ [(start, len, pgoff, path)])
    -- exec replaces the address space
    | .comm pid _ _ _ true => m.erase pid
    | _ => m) ∅

def isMapping : RawRecord → Bool
  | .mmap _ => true
  | _ => false

/-- The records of a stream less the mappings that the filter drops. -/
def recorded (f : Option PidTracker) : List RawRecord → List RawRecord
  | [] => []
  | rec :: recs =>
    let f := f.map (·.observe rec)
    (if isMapping rec && f.any fun f => (foreignPid f rec).isSome then [] else [rec]) ++
      recorded f recs

/-- The rows of the mapping table that each process has since its last exec. -/
def rowsSinceExec (f : Option PidTracker) (recs : List RawRecord) : FastMap Nat (List Nat) :=
  (sinceExec (fun n _ => n) (recorded f recs)).maps

namespace Reconstructor

/-- The reconstructor with another table of the mappings of each process. -/
def withMaps (r : Reconstructor) (maps : FastMap Nat (List Nat)) : Reconstructor :=
  { r with mapsByPid := maps }

/-- What `push_sample` resolves the source of a sample to. -/
def resolvedFrom (r : Reconstructor) (s : Sample) : Resolved :=
  ((r.arrived s).resolve s.pid s.ip).2

/-- What `push_sample` resolves the target of a sample to. -/
def resolvedTo (r : Reconstructor) (s : Sample) : Resolved :=
  (((r.arrived s).resolve s.pid s.ip).1.resolve s.pid s.addr).2

end Reconstructor

/-- What is mapped at a range is mapped there in the table. -/
def Remapped (r : Reconstructor) (maps : FastMap Nat (List Nat)) (pid lo hi : Nat) : Prop :=
  (r.findMapping pid lo hi).isSome → ((r.withMaps maps).findMapping pid lo hi).isSome

/-- The addresses of every sample resolve through the newest mapping of the
process since its exec that covers them, or not at all. -/
def AddressesRespectExec (r₀ : Reconstructor) (recs : List RawRecord) : Prop :=
  ∀ pre s post r, recs = pre ++ .sample s :: post → r₀.pushAll pre = .ok r →
    r.drops (.sample s) = false →
      Names (tables ((r.handed (.sample s)).attributing s))
        (s.ip.bind ((r.withMaps (rowsSinceExec r₀.pidFilter pre)).addressPlace s.pid))
        ((r.handed (.sample s)).resolvedFrom s) ∧
      Names (tables ((r.handed (.sample s)).attributing s))
        (s.addr.bind ((r.withMaps (rowsSinceExec r₀.pidFilter pre)).addressPlace s.pid))
        ((r.handed (.sample s)).resolvedTo s)

/-- Every block counts as it is described through the newest mapping of the
process since its exec that covers it, or not at all. -/
def BlocksRespectExec (r₀ : Reconstructor) (recs : List RawRecord) : Prop :=
  ∀ pre s post r, recs = pre ++ .sample s :: post → r₀.pushAll pre = .ok r →
    r.drops (.sample s) = false → ∀ call,
      ((r.handed (.sample s)).attributing s).blockCall s = some call →
        ((r.handed (.sample s)).attributing s).blockInfo s.pid call.1.1 call.2 =
          (((r.handed (.sample s)).attributing s).withMaps
            (rowsSinceExec r₀.pidFilter pre)).withoutBlockCache.blockInfo s.pid call.1.1 call.2

/-- Every address of a sample that is mapped has been mapped since the exec. -/
def AddressesRemapped (r₀ : Reconstructor) (recs : List RawRecord) : Prop :=
  ∀ pre s post r, recs = pre ++ .sample s :: post → r₀.pushAll pre = .ok r →
    r.drops (.sample s) = false → ∀ ip, s.ip = some ip ∨ s.addr = some ip →
      Remapped r (rowsSinceExec r₀.pidFilter pre) s.pid ip ip

/-- Every block that is mapped has been mapped since the exec. -/
def BlocksRemapped (r₀ : Reconstructor) (recs : List RawRecord) : Prop :=
  ∀ pre s post r, recs = pre ++ .sample s :: post → r₀.pushAll pre = .ok r →
    r.drops (.sample s) = false → ∀ call,
      ((r.handed (.sample s)).attributing s).blockCall s = some call →
        Remapped r (rowsSinceExec r₀.pidFilter pre) s.pid call.1.1 call.2

variable {r₀ r r' : Reconstructor} {recs : List RawRecord} {rec : RawRecord} {α : Type}

/-! ## The table -/

theorem sinceExec_concat (entry : Nat → MmapEvent → α) (recs : List RawRecord) (rec : RawRecord) :
    sinceExec entry (recs ++ [rec]) = (sinceExec entry recs).step entry rec := by
  rw [sinceExec, List.foldl_append]
  rfl

/-- The native decoder's table is the one of its records. -/
theorem mappingsByPid_eq (pd : PerfData) : mappingsByPid pd =
    (sinceExec (fun _ m => (m.start, m.len, m.pgoff, m.path))
      (pd.sideband.filterMap Sideband.record)).maps := by
  unfold mappingsByPid
  generalize pd.sideband = sideband
  induction sideband using List.reverseRecOn with
  | nil => rfl
  | append_singleton sb s ih =>
    rw [List.foldl_append, List.foldl_cons, List.foldl_nil, ih, List.filterMap_append]
    cases s with
    | mmap pid tid time start len pgoff exec path =>
      cases exec with
      | true =>
        show _ = (sinceExec _ (_ ++ [_])).maps
        rw [sinceExec_concat]
        rfl
      | false =>
        show _ = (sinceExec _ (_ ++ [])).maps
        rw [List.append_nil]
    | comm pid tid time name exec =>
      show _ = (sinceExec _ (_ ++ [_])).maps
      rw [sinceExec_concat]
      cases exec <;> rfl
    | fork | exit | switch | lost =>
      show _ = (sinceExec _ (_ ++ [_])).maps
      rw [sinceExec_concat]
      rfl
    | itraceStart =>
      show _ = (sinceExec _ (_ ++ [])).maps
      rw [List.append_nil]

theorem recorded_append (f : Option PidTracker) (xs ys : List RawRecord) :
    recorded f (xs ++ ys) = recorded f xs ++ recorded (filterAfter f xs) ys := by
  induction xs generalizing f with
  | nil => rfl
  | cons rec xs ih =>
    simp only [List.cons_append, recorded, ih, List.append_assoc]
    rfl

/-- Where a run has come to, a mapping is recorded unless the reconstructor
drops it. -/
theorem recorded_concat (h : r₀.pushAll recs = .ok r) (rec : RawRecord) :
    recorded r₀.pidFilter (recs ++ [rec]) =
      recorded r₀.pidFilter recs ++ if isMapping rec && r.drops rec then [] else [rec] := by
  rw [recorded_append, ← pushAll_filterAfter h]
  simp only [recorded, List.append_nil, drops, Option.any_map]
  rfl

/-- The tables of the two ways of keeping mappings: what each process has mapped
since its exec is the end of all it has mapped. -/
structure Trails (r : Reconstructor) (T : SinceExec Nat) : Prop where
  count : T.count = r.mappings.length
  suffix : ∀ pid, ∃ old, (r.mapsByPid.get pid).getD [] = old ++ (T.maps.get pid).getD []

theorem Trails.of_tables {T : SinceExec Nat} (h : Trails r T) (ht : Grows (tables r) (tables r')) :
    Trails r' T := by
  have hmaps : r'.mapsByPid = r.mapsByPid := ht.mapsByPid
  have hmappings : r'.mappings = r.mappings := ht.mappings
  exact ⟨by rw [h.count, hmappings], by rw [hmaps]; exact h.suffix⟩

/-- An exec takes rows out of one table only. -/
theorem Trails.step {T : SinceExec Nat} (h : Trails r T) (hmmap : isMapping rec = false) :
    Trails r (T.step (fun n _ => n) rec) := by
  cases rec with
  | mmap m => cases hmmap
  | task t =>
    show Trails r (if t.kind = .exec then ⟨T.count, T.maps.erase t.pid⟩ else T)
    split
    next =>
      refine ⟨h.count, fun pid => ?_⟩
      show ∃ old, _ = old ++ (FastMap.get (T.maps.erase t.pid) pid).getD []
      rw [FastMap.get_erase]
      split
      next => exact ⟨_, (List.append_nil _).symm⟩
      next => exact h.suffix pid
    next => exact h
  | sample | switch | lost | decoderError => exact h

/-- A mapping goes to the end of both. -/
theorem Trails.mmap {T : SinceExec Nat} (h : Trails r T) (hfew : r.mappings.length < 2 ^ 32)
    (m : MmapEvent) : Trails (r.pushMmap m) (T.step (fun n _ => n) (.mmap m)) := by
  refine ⟨?_, fun pid => ?_⟩
  · rw [pushMmap_mappings, List.length_append, List.length_singleton, ← h.count]
    rfl
  · show ∃ old, _ = old ++ (FastMap.get (T.maps.insert m.pid _) pid).getD []
    have hlast : asU32 r.mappings.length = r.mappings.length := Nat.mod_eq_of_lt hfew
    rw [pushMmap_mapsByPid, FastMap.get_insert, FastMap.get_insert, hlast, ← h.count]
    by_cases hpid : pid = m.pid
    · obtain ⟨old, hold⟩ := h.suffix m.pid
      rw [if_pos hpid, if_pos hpid, hold]
      exact ⟨old, List.append_assoc ..⟩
    · rw [if_neg hpid, if_neg hpid]
      exact h.suffix pid

/-- What is mapped at a range since the exec is the newest there is. -/
theorem Trails.findMapping {T : SinceExec Nat} (h : Trails r T) {pid lo hi : Nat}
    (hre : Remapped r T.maps pid lo hi) :
    (r.withMaps T.maps).findMapping pid lo hi = r.findMapping pid lo hi := by
  have hlist : ∀ maps : Option (List Nat), ∀ p : Nat → Bool,
      (maps.bind fun l => l.reverse.find? p) = (maps.getD []).reverse.find? p := by
    intro maps p
    cases maps <;> rfl
  obtain ⟨old, hold⟩ := h.suffix pid
  unfold Remapped at hre
  unfold Reconstructor.findMapping at hre ⊢
  rw [hlist, hlist, hold, List.reverse_append, List.find?_append] at hre
  rw [hlist, hlist, hold, List.reverse_append, List.find?_append]
  have hfound : (((T.maps.get pid).getD []).reverse.find? fun i =>
      (r.mappings[i]?).any fun m => m.start ≤ lo && hi < m.stop).isSome ∨
      (old.reverse.find? fun i =>
        (r.mappings[i]?).any fun m => m.start ≤ lo && hi < m.stop) = none := by
    cases hfind : old.reverse.find? fun i =>
        (r.mappings[i]?).any fun m => m.start ≤ lo && hi < m.stop with
    | none => exact Or.inr rfl
    | some i => exact Or.inl (hre (by rw [hfind]; exact Option.isSome_or.trans (Bool.or_true _)))
  rcases hfound with hsome | hnone
  · exact (Option.or_of_isSome hsome).symm
  · rw [hnone, Option.or_none]
    rfl

/-- What is found is a mapping that covers the range. -/
theorem findMapping_eq_some {pid lo hi i : Nat} (h : r.findMapping pid lo hi = some i) :
    ∃ map, r.mappings[i]? = some map ∧ map.start ≤ lo ∧ hi < map.stop := by
  obtain ⟨maps, -, hfind⟩ := Option.bind_eq_some_iff.mp h
  have hcovers := List.find?_some hfind
  obtain ⟨map, hmap, hrange⟩ := (Option.any_eq_true ..).mp hcovers
  have hboth := Bool.and_eq_true_iff.mp hrange
  exact ⟨map, hmap, of_decide_eq_true hboth.1, of_decide_eq_true hboth.2⟩

/-- A resolution is not the same in both tables where the newest mapping is from
before the exec. -/
theorem Trails.remapped {T : SinceExec Nat} {pid ip : Nat} {res : Resolved} {S : Tables}
    (hfull : Names S (r.addressPlace pid ip) res)
    (hsince : Names S ((r.withMaps T.maps).addressPlace pid ip) res) :
    Remapped r T.maps pid ip ip := by
  intro hsome
  obtain ⟨i, hi⟩ := Option.isSome_iff_exists.mp hsome
  have hplace : (r.addressPlace pid ip).map AddressPlace.mapIdx = some i := by
    obtain ⟨map, hmap, -⟩ := findMapping_eq_some hi
    rw [Reconstructor.addressPlace, hi, Option.bind_eq_bind, Option.bind_some, hmap]
    show some (r.addressThrough i map ip).mapIdx = some i
    unfold addressThrough
    split <;> rfl
  have hboth := hfull.map.symm.trans hsince.map
  rw [hplace] at hboth
  by_contra hnone
  rw [Option.not_isSome_iff_eq_none] at hnone
  rw [Reconstructor.addressPlace, hnone] at hboth
  cases hboth

theorem Trails.addressPlace {T : SinceExec Nat} {pid ip : Nat} (h : Trails r T)
    (hre : Remapped r T.maps pid ip ip) :
    (r.withMaps T.maps).addressPlace pid ip = r.addressPlace pid ip := by
  unfold Reconstructor.addressPlace
  rw [h.findMapping hre]
  rfl

theorem Trails.blockPlace {T : SinceExec Nat} {pid start stop : Nat} (h : Trails r T)
    (hre : Remapped r T.maps pid start stop) (tools : InlineTools) :
    (r.withMaps T.maps).blockPlace tools pid start stop = r.blockPlace tools pid start stop := by
  unfold Reconstructor.blockPlace
  rw [h.findMapping hre]
  rfl

theorem Remapped.grows {maps : FastMap Nat (List Nat)} {pid lo hi : Nat}
    (h : Remapped r maps pid lo hi) (hgrows : Grows (tables r) (tables r')) :
    Remapped r' maps pid lo hi := by
  have hmaps : r'.mapsByPid = r.mapsByPid := hgrows.mapsByPid
  have hmappings : r'.mappings = r.mappings := hgrows.mappings
  have hsince : (r'.withMaps maps).findMapping pid lo hi =
      (r.withMaps maps).findMapping pid lo hi := by
    simp only [findMapping, withMaps, hmappings]
  unfold Remapped
  rw [findMapping_congr (by rw [hmaps]) hmappings, hsince]
  exact h

/-! ## Coherence -/

/-- The address cache forgets the process that maps something. -/
theorem pushMmap_coherent (h : Coherent r) (hlisted : Listed r) (m : MmapEvent)
    (hfew : r.mappings.length < 2 ^ 32) : Coherent (r.pushMmap m) := by
  intro pid ip res hget
  have htables := pushMmap_tables r m
  have hcache : (r.pushMmap m).ipCache =
      FastMap.retain (fun (key : Nat × Nat) _ => key.1 ≠ m.pid) r.ipCache :=
    congrArg Tables.ipCache htables
  rw [hcache, FastMap.get_retain] at hget
  obtain ⟨hold, hpid⟩ := Option.filter_eq_some_iff.mp hget
  have hne : pid ≠ m.pid := of_decide_eq_true hpid
  have hnames := h pid ip res hold
  have hplace : (r.pushMmap m).addressPlace pid ip = r.addressPlace pid ip := by
    have himages : (r.pushMmap m).images = r.images := congrArg Tables.images htables
    have hindex : (r.pushMmap m).index = r.index := congrArg Tables.index htables
    unfold Reconstructor.addressPlace
    rw [findMapping_pushMmap hlisted hfew, if_neg fun hboth => hne hboth.1, pushMmap_mappings]
    cases hfind : r.findMapping pid ip ip with
    | none => rfl
    | some i =>
      obtain ⟨map, hmap, -⟩ := findMapping_eq_some hfind
      have hlt : i < r.mappings.length := (List.getElem?_eq_some_iff.mp hmap).1
      simp only [Option.bind_eq_bind, Option.bind_some, List.getElem?_append_left hlt, hmap,
        addressThrough_congr himages hindex]
  rw [hplace]
  have hfunc : (r.pushMmap m).funcIndex = r.funcIndex := congrArg Tables.funcIndex htables
  have hloc : (r.pushMmap m).locIndex = r.locIndex := congrArg Tables.locIndex htables
  refine ⟨hnames.map, ?_, ?_⟩
  · show Known (r.pushMmap m).locIndex _ _
    rw [hloc]
    exact hnames.loc
  · show Known (r.pushMmap m).funcIndex _ _
    rw [hfunc]
    exact hnames.func

/-! ## Runs -/

/-- In every state of a run the address cache is about the mapping table, and
the rows since the last exec are the end of it. -/
theorem pushAll_trails (hbuilt : Built r₀) (hfew : FewMappings r₀ recs)
    (h : r₀.pushAll recs = .ok r) :
    Coherent r ∧ Listed r ∧ Trails r (sinceExec (fun n _ => n) (recorded r₀.pidFilter recs)) := by
  refine foldlM_trace (P := fun pre m => Coherent m ∧ Listed m ∧
    Trails m (sinceExec (fun n _ => n) (recorded r₀.pidFilter pre))) ?_ ?_ recs
    List.prefix_rfl r h
  · have hnew := hbuilt.unlearnt
    refine ⟨fun pid ip res hget => ?_, fun pid maps hget => ?_, ?_, fun pid => ⟨[], ?_⟩⟩
    · rw [hnew.ipCache] at hget
      cases hget
    · rw [hnew.mapsByPid] at hget
      cases hget
    · rw [hnew.mappings]
      rfl
    · rw [hnew.mapsByPid]
      rfl
  · intro pre rec post m m' hsplit hpre hP hpush
    obtain ⟨hcoherent, hlisted, htrails⟩ := hP
    have hsymbols := push_symbols hpush
    rw [recorded_concat hpre]
    by_cases hdrop : m.drops rec = true
    · -- a dropped exec still empties the other table
      rw [if_pos hdrop] at hsymbols
      have ht : tables m' = tables m := congrArg Symbols.tables hsymbols
      have hgrows : Grows (tables m) (tables m') := ht ▸ .refl _
      refine ⟨hcoherent.of_tables ht, hlisted.of_tables ht, ?_⟩
      rw [hdrop, Bool.and_true]
      cases hmmap : isMapping rec with
      | true =>
        rw [if_pos rfl, List.append_nil]
        exact htrails.of_tables hgrows
      | false =>
        rw [if_neg Bool.false_ne_true, sinceExec_concat]
        exact (htrails.step hmmap).of_tables hgrows
    have hkept : m.drops rec = false := Bool.eq_false_of_not_eq_true hdrop
    rw [if_neg hdrop] at hsymbols
    rw [hkept, Bool.and_false, if_neg Bool.false_ne_true, sinceExec_concat]
    have ht : tables m' = ((m.handed rec).symbolsAfter rec).tables :=
      congrArg Symbols.tables hsymbols
    have hhanded := handed_tables m rec
    have hgrows : Grows (tables m) (tables (m.handed rec)) := hhanded ▸ .refl _
    cases rec with
    | sample s =>
      have hsample := (attributing_grows (m.handed (.sample s)) s).trans
        (attributed_grows (m.handed (.sample s)) s).1
      exact ⟨(attributed_coherent (hcoherent.of_tables hhanded) s).of_tables ht,
        hlisted.grows (hgrows.trans (ht ▸ hsample)),
        (htrails.step rfl).of_tables (hgrows.trans (ht ▸ hsample))⟩
    | mmap t =>
      have hlen : (m.handed (.mmap t)).mappings.length < 2 ^ 32 := hfew pre t post m hsplit hpre
      have hlisted' : Listed (m.handed (.mmap t)) := hlisted.of_tables hhanded
      exact ⟨(pushMmap_coherent (hcoherent.of_tables hhanded) hlisted' t hlen).of_tables ht,
        (pushMmap_listed hlisted' t).of_tables ht,
        ((htrails.of_tables hgrows).mmap hlen t).of_tables (ht ▸ .refl _)⟩
    | task | switch | lost | decoderError =>
      have hsame := ht.trans (symbolsAfter_tables (by simp) (by simp))
      rw [hhanded] at hsame
      exact ⟨hcoherent.of_tables hsame, hlisted.of_tables hsame,
        (htrails.step rfl).of_tables (hsame ▸ .refl _)⟩

/-- A sample resolves to the places of its addresses. -/
theorem resolved_names (h : Coherent r) (s : Sample) :
    Names (tables (r.attributing s)) (s.ip.bind (r.addressPlace s.pid)) (r.resolvedFrom s) ∧
      Names (tables (r.attributing s)) (s.addr.bind (r.addressPlace s.pid)) (r.resolvedTo s) := by
  have harrived : Grows (tables r) (tables (r.arrived s)) := arrived_tables r s ▸ .refl _
  obtain ⟨hcoherent, hfrom⟩ := resolve_names (h.of_tables (arrived_tables r s)) s.pid s.ip
  obtain ⟨-, hto⟩ := resolve_names hcoherent s.pid s.addr
  have hplace : (r.arrived s).addressPlace s.pid = r.addressPlace s.pid :=
    funext (harrived.addressPlace s.pid)
  have hplace' : ((r.arrived s).resolve s.pid s.ip).1.addressPlace s.pid =
      r.addressPlace s.pid :=
    funext ((harrived.trans (resolve_grows _ s.pid s.ip)).addressPlace s.pid)
  rw [hplace] at hfrom
  rw [hplace'] at hto
  exact ⟨hfrom.mono (resolve_grows _ s.pid s.addr), hto⟩

/-- An address resolves as it does since the exec exactly when it is mapped
since. -/
theorem Trails.names_iff {T : SinceExec Nat} {pid : Nat} {ip : Option Nat} {S : Tables}
    {res : Resolved} (h : Trails r T) (hfull : Names S (ip.bind (r.addressPlace pid)) res) :
    Names S (ip.bind ((r.withMaps T.maps).addressPlace pid)) res ↔
      ∀ a, ip = some a → Remapped r T.maps pid a a := by
  cases ip with
  | none => exact ⟨(fun _ a heq => by cases heq), fun _ => hfull⟩
  | some ip =>
    rw [Option.bind_some] at hfull ⊢
    constructor
    · intro hsince a heq
      obtain rfl := Option.some.inj heq
      exact Trails.remapped hfull hsince
    · intro hre
      rw [h.addressPlace (hre ip rfl)]
      exact hfull

/-- Addresses respect exec exactly when every mapped address of a sample has
been mapped since the exec of its process; blocks do, when every mapped block
has been, as far as the block cache is current. -/
theorem exec_respected (hbuilt : Built r₀) (hfew : FewMappings r₀ recs) :
    (AddressesRespectExec r₀ recs ↔ AddressesRemapped r₀ recs) ∧
      (BlocksStay r₀ recs → BlocksRemapped r₀ recs → BlocksRespectExec r₀ recs) := by
  constructor
  · have hsample : ∀ pre s post r, recs = pre ++ .sample s :: post → r₀.pushAll pre = .ok r →
        (Names (tables ((r.handed (.sample s)).attributing s))
          (s.ip.bind ((r.withMaps (rowsSinceExec r₀.pidFilter pre)).addressPlace s.pid))
          ((r.handed (.sample s)).resolvedFrom s) ↔
            ∀ a, s.ip = some a → Remapped r (rowsSinceExec r₀.pidFilter pre) s.pid a a) ∧
        (Names (tables ((r.handed (.sample s)).attributing s))
          (s.addr.bind ((r.withMaps (rowsSinceExec r₀.pidFilter pre)).addressPlace s.pid))
          ((r.handed (.sample s)).resolvedTo s) ↔
            ∀ a, s.addr = some a → Remapped r (rowsSinceExec r₀.pidFilter pre) s.pid a a) := by
      intro pre s post r hsplit hpre
      obtain ⟨hcoherent, -, htrails⟩ := pushAll_trails hbuilt (hfew.init hsplit) hpre
      have hhanded := handed_tables r (.sample s)
      have hgrows : Grows (tables r) (tables (r.handed (.sample s))) := hhanded ▸ .refl _
      obtain ⟨hfrom, hto⟩ := resolved_names (hcoherent.of_tables hhanded) s
      have hplace : (r.handed (.sample s)).addressPlace s.pid = r.addressPlace s.pid :=
        funext (hgrows.addressPlace s.pid)
      rw [hplace] at hfrom hto
      exact ⟨htrails.names_iff hfrom, htrails.names_iff hto⟩
    constructor
    · intro hrespect pre s post r hsplit hpre hdrop ip hip
      obtain ⟨hfrom, hto⟩ := hsample pre s post r hsplit hpre
      obtain ⟨hsrc, hdst⟩ := hrespect pre s post r hsplit hpre hdrop
      rcases hip with hip | hip
      · exact hfrom.mp hsrc ip hip
      · exact hto.mp hdst ip hip
    · intro hre pre s post r hsplit hpre hdrop
      obtain ⟨hfrom, hto⟩ := hsample pre s post r hsplit hpre
      have hboth := hre pre s post r hsplit hpre hdrop
      exact ⟨hfrom.mpr fun a ha => hboth a (Or.inl ha), hto.mpr fun a ha => hboth a (Or.inr ha)⟩
  · intro hstay hre pre s post r hsplit hpre hdrop call hcall
    obtain ⟨-, -, htrails⟩ := pushAll_trails hbuilt (hfew.init hsplit) hpre
    -- with a current block cache the row is what a lookup without the cache gives
    have hcurrent := blocks_current hbuilt hstay pre s post r hsplit hpre hdrop call hcall
    have hmapped := hre pre s post r hsplit hpre hdrop call hcall
    have hgrows := attributing_grows (r.handed (.sample s)) s
    rw [handed_tables] at hgrows
    rw [hcurrent]
    generalize (r.handed (.sample s)).attributing s = m at hgrows
    have hplace := (htrails.of_tables hgrows).blockPlace (hmapped.grows hgrows)
    cases hinline : m.inline with
    | none =>
      have hnone : m.withoutBlockCache.inline = none := by
        rw [withoutBlockCache, hinline, Option.map_none]
      have hnone' : (m.withMaps (rowsSinceExec r₀.pidFilter pre)).withoutBlockCache.inline = none :=
        hnone
      rw [blockInfo, blockInfo, hnone, hnone', Option.bind_none, Option.bind_none]
    | some inl =>
      have hinline' : (m.withMaps (rowsSinceExec r₀.pidFilter pre)).inline = some inl := hinline
      rw [blockInfo_withoutBlockCache hinline, blockInfo_withoutBlockCache hinline']
      show _ = if _ then none else ((m.withMaps _).blockPlace _ _ _ _).map _
      rw [rowsSinceExec, hplace]
      rfl

/-! ## Small streams -/

/-- Process 7 calls exec. -/
def execAt (time : Nat) : RawRecord := .task ⟨.exec, 7, 7, none, none, some time, some "p"⟩

/-- A jump through a mapping from before the exec. -/
def staleJump : List RawRecord := [mapped, execAt 5, branchAt 1 10 .JMP 0x10 0x20]

/-- The source of the jump resolves through that mapping. -/
theorem exec_forgotten : ¬ ∀ (r₀ : Reconstructor) (recs : List RawRecord), Built r₀ →
    AddressesRespectExec r₀ recs ∧ BlocksRespectExec r₀ recs := by
  intro h
  obtain ⟨haddresses, -⟩ := h counting staleJump built_counting
  obtain ⟨r, hpre, htest⟩ := ok_of_any (x := counting.pushAll (staleJump.take 2))
    (p := fun r =>
      let s : Sample := ⟨7, 1, some 0, some 10, .branches, some 0x10, some 0x20, .JMP, none, .empty⟩
      decide (((r.handed (.sample s)).resolvedFrom s).map = some 0) && (!r.drops (.sample s) &&
        decide (((r.withMaps (rowsSinceExec counting.pidFilter (staleJump.take 2))).findMapping
          7 0x10 0x10) = none)))
    (by decide)
  obtain ⟨hfound, hrest⟩ := Bool.and_eq_true_iff.mp htest
  obtain ⟨hkept, hnone⟩ := Bool.and_eq_true_iff.mp hrest
  obtain ⟨hnames, -⟩ := haddresses _ _ [] r rfl hpre (by simpa using hkept)
  have hmap := hnames.map
  rw [of_decide_eq_true hfound, Option.bind_some, Reconstructor.addressPlace,
    of_decide_eq_true hnone] at hmap
  cases hmap

/-- Two jumps after an exec, through a mapping made since. -/
def freshJumps : List RawRecord :=
  [mapped, execAt 5, .mmap ⟨7, 7, some 6, 0, 0x2000, 0, "r-xp", "/bin/p"⟩,
    branchAt 1 10 .JMP 0x10 0x20, branchAt 1 20 .JMP 0x30 0x40]

theorem freshJumps_samples {pre post : List RawRecord} {s : Sample}
    (h : freshJumps = pre ++ .sample s :: post) :
    (pre = freshJumps.take 3 ∧
      s = ⟨7, 1, some 0, some 10, .branches, some 0x10, some 0x20, .JMP, none, .empty⟩) ∨
    (pre = freshJumps.take 4 ∧
      s = ⟨7, 1, some 0, some 20, .branches, some 0x30, some 0x40, .JMP, none, .empty⟩) := by
  rcases pre with _ | ⟨a, _ | ⟨b, _ | ⟨c, _ | ⟨d, _ | ⟨e, pre⟩⟩⟩⟩⟩
  · cases h
  · cases h
  · cases h
  · cases h
    exact Or.inl ⟨rfl, rfl⟩
  · cases h
    exact Or.inr ⟨rfl, rfl⟩
  · simp [freshJumps] at h

theorem freshJumps_few : FewMappings counting freshJumps := by
  intro pre m post r hsplit hpre
  rcases pre with _ | ⟨a, _ | ⟨b, _ | ⟨c, pre⟩⟩⟩
  · cases hpre
    exact Nat.two_pow_pos 32
  · cases hsplit
  · cases hsplit
    obtain ⟨r', hpre', htest⟩ := ok_of_any (x := counting.pushAll (freshJumps.take 2))
      (p := fun r => decide (r.mappings.length = 1)) (by decide)
    obtain rfl := Except.ok.inj (hpre.symm.trans hpre')
    rw [of_decide_eq_true htest]
    exact Nat.one_lt_two_pow (by decide)
  · rcases pre with _ | ⟨d, _ | ⟨e, pre⟩⟩ <;> simp [freshJumps, branchAt] at hsplit

/-- What is mapped since the exec in a state. -/
def mappedSince (r : Reconstructor) (pre : List RawRecord) (lo hi : Nat) : Bool :=
  ((r.withMaps (rowsSinceExec counting.pidFilter pre)).findMapping 7 lo hi).isSome

theorem freshJumps_addresses : AddressesRemapped counting freshJumps := by
  intro pre s post r hsplit hpre _ ip hip _
  rcases freshJumps_samples hsplit with ⟨rfl, rfl⟩ | ⟨rfl, rfl⟩
  · obtain ⟨r', hpre', htest⟩ := ok_of_any (x := counting.pushAll (freshJumps.take 3))
      (p := fun r => mappedSince r (freshJumps.take 3) 0x10 0x10 &&
        mappedSince r (freshJumps.take 3) 0x20 0x20) (by decide)
    obtain rfl := Except.ok.inj (hpre.symm.trans hpre')
    obtain ⟨hfrom, hto⟩ := Bool.and_eq_true_iff.mp htest
    rcases hip with hip | hip
    · obtain rfl := Option.some.inj hip
      exact hfrom
    · obtain rfl := Option.some.inj hip
      exact hto
  · obtain ⟨r', hpre', htest⟩ := ok_of_any (x := counting.pushAll (freshJumps.take 4))
      (p := fun r => mappedSince r (freshJumps.take 4) 0x30 0x30 &&
        mappedSince r (freshJumps.take 4) 0x40 0x40) (by decide)
    obtain rfl := Except.ok.inj (hpre.symm.trans hpre')
    obtain ⟨hfrom, hto⟩ := Bool.and_eq_true_iff.mp htest
    rcases hip with hip | hip
    · obtain rfl := Option.some.inj hip
      exact hfrom
    · obtain rfl := Option.some.inj hip
      exact hto

theorem freshJumps_stay : BlocksStay counting freshJumps := by
  refine ⟨freshJumps_few, fun pre s post r hsplit hpre _ call _ hold => ?_⟩
  -- the only block is executed by the last record
  have hnew : noBlocks r = true := by
    rcases freshJumps_samples hsplit with ⟨rfl, rfl⟩ | ⟨rfl, rfl⟩
    · obtain ⟨r', hpre', htest⟩ := ok_of_any (x := counting.pushAll (freshJumps.take 3))
        (p := noBlocks) (by decide)
      obtain rfl := Except.ok.inj (hpre.symm.trans hpre')
      exact htest
    · obtain ⟨r', hpre', htest⟩ := ok_of_any (x := counting.pushAll (freshJumps.take 4))
        (p := noBlocks) (by decide)
      obtain rfl := Except.ok.inj (hpre.symm.trans hpre')
      exact htest
  exact absurd hold (noBlocks_remembers hnew)

theorem freshJumps_blocks : BlocksRemapped counting freshJumps := by
  intro pre s post r hsplit hpre _ call hcall _
  rcases freshJumps_samples hsplit with ⟨rfl, rfl⟩ | ⟨rfl, rfl⟩
  · obtain ⟨r', hpre', htest⟩ := ok_of_any (x := counting.pushAll (freshJumps.take 3))
      (p := fun r =>
        let s : Sample :=
          ⟨7, 1, some 0, some 10, .branches, some 0x10, some 0x20, .JMP, none, .empty⟩
        decide (((r.handed (.sample s)).attributing s).blockCall s = none)) (by decide)
    obtain rfl := Except.ok.inj (hpre.symm.trans hpre')
    rw [of_decide_eq_true htest] at hcall
    cases hcall
  · obtain ⟨r', hpre', htest⟩ := ok_of_any (x := counting.pushAll (freshJumps.take 4))
      (p := fun r =>
        let s : Sample :=
          ⟨7, 1, some 0, some 20, .branches, some 0x30, some 0x40, .JMP, none, .empty⟩
        decide (((r.handed (.sample s)).attributing s).blockCall s = some ((0x20, some 10), 0x30))
          && mappedSince r (freshJumps.take 4) 0x20 0x30) (by decide)
    obtain rfl := Except.ok.inj (hpre.symm.trans hpre')
    obtain ⟨hblock, hmapped⟩ := Bool.and_eq_true_iff.mp htest
    obtain rfl := Option.some.inj (hcall.symm.trans (of_decide_eq_true hblock))
    exact hmapped

/-- `exec_respected` on two jumps after an exec. -/
theorem exec_respected_freshJumps : Built counting ∧ FewMappings counting freshJumps ∧
    AddressesRespectExec counting freshJumps ∧ BlocksRespectExec counting freshJumps :=
  ⟨built_counting, freshJumps_few,
    (exec_respected built_counting freshJumps_few).1.mpr freshJumps_addresses,
    (exec_respected built_counting freshJumps_few).2 freshJumps_stay freshJumps_blocks⟩

end TraceMcp.Decode
