import Mathlib.Data.List.Find
import TraceMcp.Decode.BlockStarts
import TraceMcp.Decode.Resolution

/-!
# The block cache

`attribute_block` describes a block once and keeps the description for good; a
new mapping of the process clears the address cache but not this one. What is
remembered of a block still is what describing it again would give as long as
the block `StaysPut`: its function had an id when it was first described, and
no mapping has put anything else in its place since. In a run that executes
only such blocks a second time, the cache cannot be told from its absence
(`blocks_current`).
-/

namespace TraceMcp.Decode

open TraceMcp.Lib Reconstructor

namespace Reconstructor

/-- The reconstructor with an empty block cache. -/
def withoutBlockCache (r : Reconstructor) : Reconstructor :=
  { r with inline := r.inline.map fun inl => { inl with blocks := ∅ } }

/-- The block is in the cache. -/
def Remembers (r : Reconstructor) (pid start stop : Nat) : Prop :=
  ∃ inl info, r.inline = some inl ∧ inl.blocks.get (pid, start, stop) = some info

end Reconstructor

/-- Each block counts as it would without the block cache. -/
def BlocksCurrent (r₀ : Reconstructor) (recs : List RawRecord) : Prop :=
  ∀ pre s post r, recs = pre ++ .sample s :: post → r₀.pushAll pre = .ok r →
    r.drops (.sample s) = false → ∀ call,
      ((r.handed (.sample s)).attributing s).blockCall s = some call →
        ((r.handed (.sample s)).attributing s).blockInfo s.pid call.1.1 call.2 =
          ((r.handed (.sample s)).attributing s).withoutBlockCache.blockInfo s.pid call.1.1 call.2

/-- The mapping puts the same part of the same file at a block as the newest one
that covers it. -/
def SamePlace (r : Reconstructor) (m : MmapEvent) (start stop : Nat) : Prop :=
  ∃ i map, r.findMapping m.pid start stop = some i ∧ r.mappings[i]? = some map ∧
    map.path = m.path ∧
    ImageIndex.fileOffset start map.start map.pgoff = ImageIndex.fileOffset start m.start m.pgoff ∧
    ImageIndex.fileOffset stop map.start map.pgoff = ImageIndex.fileOffset stop m.start m.pgoff

/-- A mapping that covers a block of its process leaves it where it was. -/
def LeavesBlock (r : Reconstructor) (rec : RawRecord) (pid start stop : Nat) : Prop :=
  ∀ m, rec = .mmap m → m.pid = pid → m.start ≤ start → stop < satAdd m.start m.len →
    SamePlace r m start stop

/-- When the block is described, the symbol at its start has an id. -/
def NamesStart (r : Reconstructor) (rec : RawRecord) (pid start stop : Nat) : Prop :=
  ∀ s, rec = .sample s → s.pid = pid → ∀ call,
    ((r.handed rec).attributing s).blockCall s = some call → call.1.1 = start → call.2 = stop →
      ∀ inl x, r.inline = some inl →
        ((r.handed rec).attributing s).blockPlace inl.tools pid start stop = some x →
          ∀ key, x.symbol = some key →
            (((r.handed rec).attributing s).funcIndex.get key).isSome

/-- The history of a block: its start was named when it was described, and no
mapping has moved it since. -/
def StaysPut (r₀ : Reconstructor) (recs : List RawRecord) (pid start stop : Nat) : Prop :=
  ∀ pre rec post r, recs = pre ++ rec :: post → r₀.pushAll pre = .ok r → r.drops rec = false →
    (r.Remembers pid start stop → LeavesBlock r rec pid start stop) ∧
      (¬ r.Remembers pid start stop → NamesStart r rec pid start stop)

/-- There are at most `2^32` mappings, the range of their indexes. -/
def FewMappings (r₀ : Reconstructor) (recs : List RawRecord) : Prop :=
  ∀ pre m post r, recs = pre ++ .mmap m :: post → r₀.pushAll pre = .ok r →
    r.mappings.length < 2 ^ 32

/-- There are few mappings, and a block that is executed again has stayed put. -/
structure BlocksStay (r₀ : Reconstructor) (recs : List RawRecord) : Prop where
  few : FewMappings r₀ recs
  stays : ∀ pre s post r, recs = pre ++ .sample s :: post → r₀.pushAll pre = .ok r →
    r.drops (.sample s) = false → ∀ call,
      ((r.handed (.sample s)).attributing s).blockCall s = some call →
        r.Remembers s.pid call.1.1 call.2 → StaysPut r₀ pre s.pid call.1.1 call.2

variable {r₀ r r' : Reconstructor} {recs : List RawRecord} {rec : RawRecord} {pid start stop : Nat}
  {inl inl' : InlineState} {info : BlockInfo}

/-! ## Entries -/

/-- A description that is still right. -/
structure EntryOk (r : Reconstructor) (inl : InlineState) (pid start stop : Nat)
    (info : BlockInfo) (x : BlockPlace) : Prop where
  place : r.blockPlace inl.tools pid start stop = some x
  instructions : info.instructions = x.instructions
  chain : inl.chainIndex.get x.chain = some info.chainKey
  function : Known r.funcIndex x.symbol info.function

theorem info_withoutBlocks (x : BlockPlace) :
    x.info r.withoutBlockCache { inl with blocks := ∅ } = x.info r inl := by
  have hchain : (internChain { inl with blocks := ∅ } x.chain).2 = (internChain inl x.chain).2 := by
    unfold internChain
    dsimp only
    split <;> rfl
  show BlockInfo.mk _ (internChain _ _).2 _ = _
  rw [hchain]
  rfl

theorem blockInfo_withoutBlockCache (h : r.inline = some inl) :
    r.withoutBlockCache.blockInfo pid start stop =
      if stop < start ∨ stop - start > 2 ^ 20 then none
      else (r.blockPlace inl.tools pid start stop).map fun x => x.info r inl := by
  have hinline : r.withoutBlockCache.inline = some { inl with blocks := ∅ } := by
    rw [withoutBlockCache, h, Option.map_some]
  rw [blockInfo, hinline, Option.bind_some]
  split
  next => rfl
  next =>
    rw [describeBlock_eq, Option.map_map]
    show (FastMap.get (∅ : FastMap (Nat × Nat × Nat) BlockInfo) _).or _ = _
    rw [FastMap.get_empty, Option.none_or]
    have hplace : r.withoutBlockCache.blockPlace inl.tools pid start stop =
        r.blockPlace inl.tools pid start stop := rfl
    rw [hplace]
    refine Option.map_congr fun x _ => ?_
    exact info_withoutBlocks x

/-- A right description is the one that describing the block again gives. -/
theorem EntryOk.current {x : BlockPlace} (h : r.inline = some inl)
    (hget : inl.blocks.get (pid, start, stop) = some info)
    (hok : EntryOk r inl pid start stop info x) :
    r.blockInfo pid start stop = r.withoutBlockCache.blockInfo pid start stop := by
  have hinfo : x.info r inl = info := by
    obtain ⟨function, chainKey, instructions⟩ := info
    simp only [BlockPlace.info, internChain_of_known hok.chain, ← hok.instructions,
      ← hok.function.1]
  rw [blockInfo_withoutBlockCache h, hok.place, Option.map_some, hinfo, blockInfo, h,
    Option.bind_some, hget, Option.some_or]

theorem placeThrough_congr (himages : r'.images = r.images) (hindex : r'.index = r.index)
    (tools : InlineTools) (map : MappingRecord) :
    r'.placeThrough tools map start stop = r.placeThrough tools map start stop := by
  unfold placeThrough imageAt
  rw [himages, hindex]

theorem Grows.blockPlace (h : Grows (tables r) (tables r')) (tools : InlineTools) :
    r'.blockPlace tools pid start stop = r.blockPlace tools pid start stop := by
  have hmaps : r'.mapsByPid = r.mapsByPid := h.mapsByPid
  have hmappings : r'.mappings = r.mappings := h.mappings
  unfold Reconstructor.blockPlace
  rw [findMapping_congr (by rw [hmaps]) hmappings, hmappings]
  simp only [placeThrough_congr h.images h.index]

/-- A description stays right while nothing is mapped. -/
theorem EntryOk.grows {x : BlockPlace} (hok : EntryOk r inl pid start stop info x)
    (hgrows : Grows (tables r) (tables r')) (htools : inl'.tools = inl.tools)
    (hchains : ∀ chain i, inl.chainIndex.get chain = some i →
      inl'.chainIndex.get chain = some i) : EntryOk r' inl' pid start stop info x where
  place := by rw [htools, hgrows.blockPlace, hok.place]
  instructions := hok.instructions
  chain := hchains _ _ hok.chain
  function := hok.function.mono hgrows.func

/-! ## Mappings -/

/-- The table lists mappings that there are. -/
def Listed (r : Reconstructor) : Prop :=
  ∀ pid maps, r.mapsByPid.get pid = some maps → ∀ i ∈ maps, i < r.mappings.length

theorem Listed.grows (h : Listed r) (hgrows : Grows (tables r) (tables r')) : Listed r' := by
  have hmaps : r'.mapsByPid = r.mapsByPid := hgrows.mapsByPid
  have hmappings : r'.mappings = r.mappings := hgrows.mappings
  intro pid maps hget
  rw [hmappings]
  exact h pid maps (hmaps ▸ hget)

theorem Listed.of_tables (h : Listed r) (ht : tables r' = tables r) : Listed r' :=
  h.grows (ht ▸ .refl _)

/-- The row of a mapping. -/
def mappingOf (r : Reconstructor) (m : MmapEvent) : MappingRecord where
  generation := asU32 r.mappings.length
  pid := m.pid
  start := m.start
  stop := satAdd m.start m.len
  pgoff := m.pgoff
  prot := m.prot
  path := m.path
  buildId := (r.images.find? fun i => i.identity.path = m.path).bind (·.identity.buildId)
  validFrom := .unknown
  validTo := none

/-- What a mapping record does to the tables. -/
theorem pushMmap_tables (r : Reconstructor) (m : MmapEvent) : tables (r.pushMmap m) =
    { tables r with
      mappings := r.mappings ++ [mappingOf r m]
      mapsByPid := r.mapsByPid.insert m.pid
        ((r.mapsByPid.get m.pid).getD [] ++ [asU32 r.mappings.length])
      ipCache := FastMap.retain (fun (key : Nat × Nat) _ => key.1 ≠ m.pid) r.ipCache } := by
  have hnote : tables (r.noteAbs m.timeNs) = tables r :=
    congrArg Symbols.tables (noteAbs_symbols m.timeNs)
  have hmappings : (r.noteAbs m.timeNs).mappings = r.mappings := congrArg Tables.mappings hnote
  have hmaps : (r.noteAbs m.timeNs).mapsByPid = r.mapsByPid := congrArg Tables.mapsByPid hnote
  have himages : (r.noteAbs m.timeNs).images = r.images := congrArg Tables.images hnote
  have hcache : (r.noteAbs m.timeNs).ipCache = r.ipCache := congrArg Tables.ipCache hnote
  show { tables (r.noteAbs m.timeNs) with
    mappings := (r.noteAbs m.timeNs).mappings ++ [mappingOf (r.noteAbs m.timeNs) m]
    mapsByPid := (r.noteAbs m.timeNs).mapsByPid.insert m.pid
      (((r.noteAbs m.timeNs).mapsByPid.get m.pid).getD [] ++
        [asU32 (r.noteAbs m.timeNs).mappings.length])
    ipCache := FastMap.retain (fun (key : Nat × Nat) _ => key.1 ≠ m.pid)
      (r.noteAbs m.timeNs).ipCache } = _
  rw [hnote, mappingOf, hmappings, hmaps, himages, hcache]
  rfl

theorem pushMmap_mappings (r : Reconstructor) (m : MmapEvent) :
    (r.pushMmap m).mappings = r.mappings ++ [mappingOf r m] :=
  congrArg Tables.mappings (pushMmap_tables r m)

theorem pushMmap_mapsByPid (r : Reconstructor) (m : MmapEvent) :
    (r.pushMmap m).mapsByPid = r.mapsByPid.insert m.pid
      ((r.mapsByPid.get m.pid).getD [] ++ [asU32 r.mappings.length]) :=
  congrArg Tables.mapsByPid (pushMmap_tables r m)

theorem pushMmap_listed (h : Listed r) (m : MmapEvent) : Listed (r.pushMmap m) := by
  intro pid maps hget i hi
  rw [pushMmap_mapsByPid, FastMap.get_insert] at hget
  rw [pushMmap_mappings, List.length_append, List.length_singleton]
  split at hget
  next =>
    obtain rfl := Option.some.inj hget
    rcases List.mem_append.mp hi with hi | hi
    · cases hold : r.mapsByPid.get m.pid with
      | none =>
        rw [hold] at hi
        cases hi
      | some old =>
        rw [hold] at hi
        exact Nat.lt_succ_of_lt (h m.pid old hold i hi)
    · rw [List.mem_singleton.mp hi]
      exact Nat.lt_succ_of_le (Nat.mod_le ..)
  next => exact Nat.lt_succ_of_lt (h pid maps hget i hi)

/-- Among the mappings listed, one more row makes no difference. -/
theorem find_listed {mappings : List MappingRecord} {maps : List Nat} (new : MappingRecord)
    (h : ∀ i ∈ maps, i < mappings.length) (p : MappingRecord → Bool) :
    (maps.reverse.find? fun i => ((mappings ++ [new])[i]?).any p) =
      maps.reverse.find? fun i => (mappings[i]?).any p := by
  refine List.find?_congr fun i hi => ?_
  rw [List.getElem?_append_left (h i (List.mem_reverse.mp hi))]

/-- A new mapping is found for what it covers, and for nothing else. -/
theorem findMapping_pushMmap (h : Listed r) {m : MmapEvent} (hfew : r.mappings.length < 2 ^ 32)
    (pid lo hi : Nat) : (r.pushMmap m).findMapping pid lo hi =
      if pid = m.pid ∧ m.start ≤ lo ∧ hi < satAdd m.start m.len then some r.mappings.length
      else r.findMapping pid lo hi := by
  unfold findMapping
  rw [pushMmap_mapsByPid, pushMmap_mappings, FastMap.get_insert]
  by_cases hpid : pid = m.pid
  · have hlast : asU32 r.mappings.length = r.mappings.length := Nat.mod_eq_of_lt hfew
    rw [if_pos hpid, Option.bind_some, List.reverse_append, List.reverse_singleton,
      List.singleton_append, hlast]
    by_cases hcovers : m.start ≤ lo ∧ hi < satAdd m.start m.len
    · rw [if_pos ⟨hpid, hcovers⟩]
      apply List.find?_cons_of_pos
      rw [List.getElem?_concat_length, Option.any_some]
      exact Bool.and_eq_true_iff.mpr ⟨decide_eq_true hcovers.1, decide_eq_true hcovers.2⟩
    · rw [if_neg fun hboth => hcovers hboth.2, List.find?_cons_of_neg, hpid]
      · cases hold : r.mapsByPid.get m.pid with
        | none => rfl
        | some old => exact find_listed _ (h m.pid old hold) _
      · rw [List.getElem?_concat_length, Option.any_some]
        intro hboth
        have hboth' := Bool.and_eq_true_iff.mp hboth
        exact hcovers ⟨of_decide_eq_true hboth'.1, of_decide_eq_true hboth'.2⟩
  · rw [if_neg hpid, if_neg fun hboth => hpid hboth.1]
    cases hold : r.mapsByPid.get pid with
    | none => rfl
    | some old => exact find_listed _ (h pid old hold) _

/-- The place of a block depends on the mapping by its file and its offsets. -/
theorem placeThrough_same {map map' : MappingRecord} (tools : InlineTools)
    (hpath : map'.path = map.path)
    (hstart : ImageIndex.fileOffset start map'.start map'.pgoff =
      ImageIndex.fileOffset start map.start map.pgoff)
    (hstop : ImageIndex.fileOffset stop map'.start map'.pgoff =
      ImageIndex.fileOffset stop map.start map.pgoff) :
    r.placeThrough tools map' start stop = r.placeThrough tools map start stop := by
  unfold placeThrough ImageIndex.relativeAddr
  rw [hpath, hstart, hstop]

/-- A description stays right when a mapping leaves the block where it was. -/
theorem EntryOk.mapped {m : MmapEvent} {x : BlockPlace}
    (hok : EntryOk r inl pid start stop info x) (hlisted : Listed r)
    (hfew : r.mappings.length < 2 ^ 32) (hleaves : LeavesBlock r (.mmap m) pid start stop) :
    EntryOk (r.pushMmap m) inl pid start stop info x := by
  have htables := pushMmap_tables r m
  have himages : (r.pushMmap m).images = r.images := congrArg Tables.images htables
  have hindex : (r.pushMmap m).index = r.index := congrArg Tables.index htables
  have hfunc : (r.pushMmap m).funcIndex = r.funcIndex := congrArg Tables.funcIndex htables
  refine ⟨?_, hok.instructions, hok.chain, hfunc ▸ hok.function⟩
  have hplace := hok.place
  unfold Reconstructor.blockPlace at hplace ⊢
  obtain ⟨i, hfind, hrow⟩ := Option.bind_eq_some_iff.mp hplace
  obtain ⟨map, hmap, hthrough⟩ := Option.bind_eq_some_iff.mp hrow
  rw [findMapping_pushMmap hlisted hfew, pushMmap_mappings]
  split
  next hcovers =>
    -- the new mapping is the newest that covers the block
    obtain ⟨rfl, hstart, hstop⟩ := hcovers
    obtain ⟨i', map', hfind', hmap', hpath, hoff, hoffEnd⟩ := hleaves m rfl rfl hstart hstop
    obtain rfl := Option.some.inj (hfind.symm.trans hfind')
    obtain rfl := Option.some.inj (hmap.symm.trans hmap')
    rw [Option.bind_eq_bind, Option.bind_some, List.getElem?_concat_length, Option.bind_eq_bind,
      Option.bind_some, placeThrough_congr himages hindex]
    have hsame : r.placeThrough inl.tools (mappingOf r m) start stop =
        r.placeThrough inl.tools map start stop :=
      placeThrough_same inl.tools hpath.symm hoff.symm hoffEnd.symm
    exact hsame.trans hthrough
  next =>
    have hlt : i < r.mappings.length := (List.getElem?_eq_some_iff.mp hmap).1
    rw [hfind, Option.bind_eq_bind, Option.bind_some, List.getElem?_append_left hlt, hmap,
      Option.bind_eq_bind, Option.bind_some, placeThrough_congr himages hindex]
    exact hthrough

/-! ## Runs -/

theorem StaysPut.init (h : StaysPut r₀ (recs ++ [rec]) pid start stop) :
    StaysPut r₀ recs pid start stop := by
  intro pre rec' post r hsplit
  exact h pre rec' (post ++ [rec]) r (by rw [hsplit, List.append_assoc, List.cons_append])

/-- What the cache remembers of a block is right while it stays put. -/
def Remembered (r₀ : Reconstructor) (recs : List RawRecord) (r : Reconstructor) : Prop :=
  ∀ pid start stop inl info, r.inline = some inl →
    inl.blocks.get (pid, start, stop) = some info → StaysPut r₀ recs pid start stop →
      ∃ x, EntryOk r inl pid start stop info x

theorem Remembered.sample {s : Sample} (h : Remembered r₀ recs r) (hpre : r₀.pushAll recs = .ok r)
    (hdrop : r.drops (.sample s) = false)
    (ht : tables r' = tables ((r.handed (.sample s)).attributed s)) :
    Remembered r₀ (recs ++ [.sample s]) r' := by
  intro pid start stop inl' info hinl' hget hhistory
  have hgrows := attributing_grows (r.handed (.sample s)) s
  rw [handed_tables] at hgrows
  have hinline : ((r.handed (.sample s)).attributing s).inline = r.inline := by
    rw [attributing_inline]
    exact congrArg Tables.inline (handed_tables r _)
  have hattributed : ((r.handed (.sample s)).attributed s).inline = some inl' :=
    (congrArg Tables.inline ht).symm.trans hinl'
  have hon : ((r.handed (.sample s)).attributing s).inline.isSome := by
    rw [attributing_inline, ← attributed_inline s, hattributed]
    rfl
  obtain ⟨inl, hinl⟩ := Option.isSome_iff_exists.mp hon
  have hinlr : r.inline = some inl := hinline.symm.trans hinl
  obtain ⟨inl₁, htables, hnone, hsome⟩ := attributed_tables hinl
  obtain rfl := Option.some.inj (hattributed.symm.trans (congrArg Tables.inline htables))
  have hsame : Grows (tables ((r.handed (.sample s)).attributing s)) (tables r') :=
    ht ▸ (attributed_grows (r.handed (.sample s)) s).1
  obtain ⟨hold, hnew⟩ := hhistory recs (.sample s) [] r rfl hpre hdrop
  cases hcall : ((r.handed (.sample s)).attributing s).blockCall s with
  | none =>
    obtain rfl := hnone hcall
    obtain ⟨x, hok⟩ := h pid start stop inl' info hinlr hget hhistory.init
    exact ⟨x, hok.grows (hgrows.trans hsame) rfl fun _ _ hi => hi⟩
  | some call =>
    have hattr := hsome call hcall
    rcases hattr.blocks _ info hget with hcached | ⟨hkey, hfresh, x, hplace, rfl, hchain⟩
    · obtain ⟨x, hok⟩ := h pid start stop inl info hinlr hcached hhistory.init
      exact ⟨x, hok.grows (hgrows.trans hsame) hattr.tools hattr.chains⟩
    · -- the block is described at this sample
      obtain ⟨rfl, hspan⟩ := Prod.mk.inj hkey
      obtain ⟨rfl, rfl⟩ := Prod.mk.inj hspan
      have hforgotten : ¬ r.Remembers s.pid call.1.1 call.2 := by
        rintro ⟨inl₂, info₂, hinl₂, hget₂⟩
        obtain rfl := Option.some.inj (hinlr.symm.trans hinl₂)
        rw [hfresh] at hget₂
        cases hget₂
      have hnamed := hnew hforgotten s rfl rfl call hcall rfl rfl inl x hinlr hplace
      have hok : EntryOk ((r.handed (.sample s)).attributing s) inl' s.pid call.1.1 call.2
          (x.info ((r.handed (.sample s)).attributing s) inl) x := by
        refine ⟨by rw [hattr.tools, hplace], rfl, hchain, rfl, fun hsome => ?_⟩
        obtain ⟨key, hkey⟩ := Option.isSome_iff_exists.mp hsome
        show (x.symbol.bind _).isSome
        rw [hkey, Option.bind_some]
        exact hnamed key hkey
      exact ⟨x, hok.grows hsame rfl fun _ _ hi => hi⟩

theorem Remembered.of_tables (h : Remembered r₀ recs r)
    (ht : tables r' = tables r) : Remembered r₀ (recs ++ [rec]) r' := by
  intro pid start stop inl info hinl hget hhistory
  have hinline : r'.inline = r.inline := congrArg Tables.inline ht
  obtain ⟨x, hok⟩ := h pid start stop inl info (hinline.symm.trans hinl) hget hhistory.init
  exact ⟨x, hok.grows (ht ▸ .refl _) rfl fun _ _ hi => hi⟩

/-- What is remembered stays right when something is mapped, unless that moves
a block that is in the cache. -/
theorem Remembered.mmap {m : MmapEvent} (h : Remembered r₀ recs r) (hlisted : Listed r)
    (hpre : r₀.pushAll recs = .ok r) (hdrop : r.drops (.mmap m) = false)
    (hfew : r.mappings.length < 2 ^ 32)
    (ht : tables r' = tables ((r.handed (.mmap m)).pushMmap m)) :
    Remembered r₀ (recs ++ [.mmap m]) r' := by
  intro pid start stop inl info hinl hget hhistory
  have hmapped : tables r' = tables (r.pushMmap m) := by
    rw [ht, pushMmap_tables, pushMmap_tables, handed_tables]
    rfl
  have hinline : r'.inline = r.inline :=
    (congrArg Tables.inline hmapped).trans (pushMmap_inline m)
  have hinlr : r.inline = some inl := hinline.symm.trans hinl
  obtain ⟨x, hok⟩ := h pid start stop inl info hinlr hget hhistory.init
  obtain ⟨hleaves, -⟩ := hhistory recs (.mmap m) [] r rfl hpre hdrop
  have hok' := hok.mapped hlisted hfew (hleaves ⟨inl, info, hinlr, hget⟩)
  exact ⟨x, hok'.grows (hmapped ▸ .refl _) rfl fun _ _ hi => hi⟩

/-- What the block cache says of blocks that stay put is right in every state of
a run. -/
theorem pushAll_remembered (hbuilt : Built r₀) (hfew : FewMappings r₀ recs)
    (h : r₀.pushAll recs = .ok r) :
    Listed r ∧ Remembered r₀ recs r := by
  refine foldlM_trace (P := fun pre m => Listed m ∧ Remembered r₀ pre m) ?_ ?_ recs
    List.prefix_rfl r h
  · refine ⟨fun pid maps hget => ?_, fun pid start stop inl info hinl hget => ?_⟩
    · rw [hbuilt.unlearnt.mapsByPid] at hget
      cases hget
    · rw [hbuilt.unlearnt.inline inl hinl] at hget
      cases hget
  · intro pre rec post m m' hsplit hpre hP hpush
    obtain ⟨hlisted, hremembered⟩ := hP
    have hsymbols := push_symbols hpush
    by_cases hdrop : m.drops rec = true
    · rw [if_pos hdrop] at hsymbols
      have ht : tables m' = tables m := congrArg Symbols.tables hsymbols
      exact ⟨hlisted.of_tables ht, hremembered.of_tables ht⟩
    rw [if_neg hdrop] at hsymbols
    have hkept : m.drops rec = false := Bool.eq_false_of_not_eq_true hdrop
    have ht : tables m' = ((m.handed rec).symbolsAfter rec).tables :=
      congrArg Symbols.tables hsymbols
    have hhanded : Listed (m.handed rec) := hlisted.of_tables (handed_tables m rec)
    cases rec with
    | sample s =>
      have hgrows := (attributing_grows (m.handed (.sample s)) s).trans
        (attributed_grows (m.handed (.sample s)) s).1
      exact ⟨hhanded.grows (ht ▸ hgrows), hremembered.sample hpre hkept ht⟩
    | mmap t =>
      exact ⟨(pushMmap_listed hhanded t).of_tables ht,
        hremembered.mmap hlisted hpre hkept (hfew pre t post m hsplit hpre) ht⟩
    | task | switch | lost | decoderError =>
      have hsame := ht.trans (symbolsAfter_tables (by simp) (by simp))
      rw [handed_tables] at hsame
      exact ⟨hlisted.of_tables hsame, hremembered.of_tables hsame⟩

theorem FewMappings.init {pre post : List RawRecord} (h : FewMappings r₀ recs)
    (hsplit : recs = pre ++ rec :: post) : FewMappings r₀ pre := by
  intro pre' m post' r' hsplit'
  exact h pre' m (post' ++ rec :: post) r'
    (by rw [hsplit, hsplit', List.append_assoc, List.cons_append])

/-- In a run that executes again only blocks that have stayed put, each block
counts as it would without the block cache. -/
theorem blocks_current (hbuilt : Built r₀) (hstay : BlocksStay r₀ recs) :
    BlocksCurrent r₀ recs := by
  intro pre s post r hsplit hpre hdrop call hcall
  obtain ⟨-, hremembered⟩ := pushAll_remembered hbuilt (hstay.few.init hsplit) hpre
  have hstays := hstay.stays pre s post r hsplit hpre hdrop call hcall
  have hgrows := attributing_grows (r.handed (.sample s)) s
  rw [handed_tables] at hgrows
  have hinline : ((r.handed (.sample s)).attributing s).inline = r.inline := by
    rw [attributing_inline]
    exact congrArg Tables.inline (handed_tables r _)
  generalize (r.handed (.sample s)).attributing s = m at hcall hgrows hinline hstays ⊢
  cases hinl : m.inline with
  | none =>
    -- no block is described without inline attribution
    rw [blockCall, hinl, Option.isNone_none, if_pos rfl] at hcall
    cases hcall
  | some inl =>
    have hinlr : r.inline = some inl := hinline.symm.trans hinl
    cases hget : inl.blocks.get (s.pid, call.1.1, call.2) with
    | none =>
      rw [blockInfo_withoutBlockCache hinl, blockInfo, hinl, Option.bind_some, hget,
        Option.none_or, describeBlock_eq, Option.map_map]
      rfl
    | some info =>
      obtain ⟨x, hok⟩ := hremembered s.pid call.1.1 call.2 inl info hinlr hget
        (hstays ⟨inl, info, hinlr, hget⟩)
      have hnow : EntryOk m inl s.pid call.1.1 call.2 info x :=
        hok.grows hgrows rfl fun _ _ hi => hi
      exact hnow.current hinl hget

/-! ## A small stream -/

/-- Two images of one function each, mapped in turn at the same address. -/
def twoImages : Reconstructor :=
  (new "a" [⟨⟨"/bin/p", "h", none, true⟩, "p", List.replicate 64 0x90⟩,
      ⟨⟨"/bin/q", "i", none, true⟩, "q", List.replicate 64 0x90⟩]
    fun _ => ⟨[], [⟨"f", "f", 0, 0x1000⟩]⟩).withInlineAttribution nopTools

/-- A block of `/bin/p`, and the same addresses after `/bin/q` is mapped there. -/
def remappedBlock : List RawRecord :=
  [mapped, branchAt 1 10 .JMP 0x10 0x20, branchAt 1 20 .JMP 0x30 0x20,
    .mmap ⟨7, 7, some 25, 0, 0x1000, 0, "r-xp", "/bin/q"⟩, branchAt 1 30 .JMP 0x30 0x20]

/-- The block of `/bin/q` counts as the one of `/bin/p`. -/
theorem blocks_stale : ¬ ∀ (r₀ : Reconstructor) (recs : List RawRecord), Built r₀ →
    BlocksCurrent r₀ recs := by
  intro h
  have hbuilt : Built twoImages := .withInlineAttribution _ (.new ..)
  obtain ⟨r, hpre, htest⟩ := ok_of_any (x := twoImages.pushAll (remappedBlock.take 4))
    (p := fun r =>
      let s : Sample := ⟨7, 1, some 0, some 30, .branches, some 0x30, some 0x20, .JMP, none, .empty⟩
      let m := (r.handed (.sample s)).attributing s
      decide (m.blockCall s = some ((0x20, some 20), 0x30)) && (!r.drops (.sample s) &&
        decide ((m.blockInfo 7 0x20 0x30).map BlockInfo.function ≠
          (m.withoutBlockCache.blockInfo 7 0x20 0x30).map BlockInfo.function)))
    (by decide)
  obtain ⟨hcall, hrest⟩ := Bool.and_eq_true_iff.mp htest
  obtain ⟨hkept, hdiffer⟩ := Bool.and_eq_true_iff.mp hrest
  have hcurrent := h twoImages remappedBlock hbuilt _ _ [] r rfl hpre (by simpa using hkept) _
    (of_decide_eq_true hcall)
  exact of_decide_eq_true hdiffer (congrArg _ hcurrent)

/-- The block of one function, executed twice. -/
def sameBlock : List RawRecord :=
  [mapped, branchAt 1 10 .JMP 0x10 0x20, branchAt 1 20 .JMP 0x30 0x20,
    branchAt 1 30 .JMP 0x30 0x20]

/-- No block has been described. -/
def noBlocks (r : Reconstructor) : Bool := r.inline.all fun inl => inl.blocks.keys.isEmpty

theorem noBlocks_remembers (h : noBlocks r = true) : ¬ r.Remembers pid start stop := by
  rintro ⟨inl, info, hinl, hget⟩
  rw [noBlocks, hinl, Option.all_some, List.isEmpty_iff] at h
  have hlookup : inl.blocks.lookup (pid, start, stop) = some info := hget
  have hmem : (pid, start, stop) ∈ inl.blocks.keys :=
    AList.mem_keys.mp (AList.lookup_isSome.mp (hlookup ▸ rfl))
  rw [h] at hmem
  cases hmem

/-- The symbol at the start of a block has an id. -/
def startNamed (r : Reconstructor) (pid start stop : Nat) : Bool :=
  r.inline.all fun inl => (r.blockPlace inl.tools pid start stop).all fun x =>
    x.symbol.all fun key => (r.funcIndex.get key).isSome

theorem sameBlock_staysPut : StaysPut counting (sameBlock.take 3) 7 0x20 0x30 := by
  have hnames : ∀ s r, startNamed ((r.handed (.sample s)).attributing s) 7 0x20 0x30 = true →
      NamesStart r (.sample s) 7 0x20 0x30 := by
    intro s r htest s' heq _ _ _ _ _ inl x hinl hplace key hkey
    obtain rfl := (RawRecord.sample.injEq ..).mp heq
    have hinline : ((r.handed (.sample s)).attributing s).inline = some inl := by
      rw [attributing_inline]
      exact (congrArg Tables.inline (handed_tables r _)).trans hinl
    rw [startNamed, hinline, Option.all_some, hplace, Option.all_some, hkey] at htest
    exact htest
  intro pre rec post r hsplit hpre _
  rcases pre with _ | ⟨a, _ | ⟨b, _ | ⟨c, pre⟩⟩⟩
  · cases hsplit
    cases hpre
    refine ⟨fun hold => absurd hold (noBlocks_remembers (by decide)), fun _ s heq => ?_⟩
    cases heq
  · cases hsplit
    refine ⟨(fun _ m heq => by cases heq), fun _ => hnames _ r ?_⟩
    obtain ⟨r', hpre', htest⟩ := ok_of_any (x := counting.pushAll [mapped])
      (p := fun r => startNamed ((r.handed (branchAt 1 10 .JMP 0x10 0x20)).attributing
        ⟨7, 1, some 0, some 10, .branches, some 0x10, some 0x20, .JMP, none, .empty⟩) 7 0x20 0x30)
      (by decide)
    obtain rfl := Except.ok.inj (hpre.symm.trans hpre')
    exact htest
  · cases hsplit
    refine ⟨(fun _ m heq => by cases heq), fun _ => hnames _ r ?_⟩
    obtain ⟨r', hpre', htest⟩ := ok_of_any (x := counting.pushAll (sameBlock.take 2))
      (p := fun r => startNamed ((r.handed (branchAt 1 20 .JMP 0x30 0x20)).attributing
        ⟨7, 1, some 0, some 20, .branches, some 0x30, some 0x20, .JMP, none, .empty⟩) 7 0x20 0x30)
      (by decide)
    obtain rfl := Except.ok.inj (hpre.symm.trans hpre')
    exact htest
  · simp [sameBlock] at hsplit

theorem sameBlock_stay : BlocksStay counting sameBlock := by
  constructor
  · intro pre m post r hsplit hpre
    rcases pre with _ | ⟨a, pre⟩
    · cases hpre
      exact Nat.two_pow_pos 32
    · rcases pre with _ | ⟨b, _ | ⟨c, _ | ⟨d, pre⟩⟩⟩ <;> simp [sameBlock, branchAt] at hsplit
  · intro pre s post r hsplit hpre _ call hcall hold
    rcases pre with _ | ⟨a, _ | ⟨b, _ | ⟨c, _ | ⟨d, pre⟩⟩⟩⟩
    · cases hsplit
    · cases hsplit
      obtain ⟨r', hpre', htest⟩ := ok_of_any (x := counting.pushAll [mapped]) (p := noBlocks)
        (by decide)
      obtain rfl := Except.ok.inj (hpre.symm.trans hpre')
      exact absurd hold (noBlocks_remembers htest)
    · cases hsplit
      obtain ⟨r', hpre', htest⟩ := ok_of_any (x := counting.pushAll (sameBlock.take 2))
        (p := noBlocks) (by decide)
      obtain rfl := Except.ok.inj (hpre.symm.trans hpre')
      exact absurd hold (noBlocks_remembers htest)
    · cases hsplit
      obtain ⟨r', hpre', htest⟩ := ok_of_any (x := counting.pushAll (sameBlock.take 3))
        (p := fun r => decide (((r.handed (branchAt 1 30 .JMP 0x30 0x20)).attributing
          ⟨7, 1, some 0, some 30, .branches, some 0x30, some 0x20, .JMP, none, .empty⟩).blockCall
            ⟨7, 1, some 0, some 30, .branches, some 0x30, some 0x20, .JMP, none, .empty⟩ =
              some ((0x20, some 20), 0x30)))
        (by decide)
      obtain rfl := Except.ok.inj (hpre.symm.trans hpre')
      obtain rfl := Option.some.inj (hcall.symm.trans (of_decide_eq_true htest))
      exact sameBlock_staysPut
    · simp [sameBlock] at hsplit

/-- `blocks_current` on a block that is executed twice. -/
theorem blocks_current_sameBlock : Built counting ∧ BlocksCurrent counting sameBlock :=
  ⟨built_counting, blocks_current built_counting sameBlock_stay⟩

end TraceMcp.Decode
