import TraceMcp.Decode.Blocks

/-!
# Resolution

Where an address lies (`AddressPlace`: the mapping, the location, the symbol)
depends on the images and the mapping table only; under which ids the location
and the symbol are known, on the tables that intern them. Those only grow, so
an id once given is right for good, and `resolve` returns the ids of the place
(`resolve_names`) whether it finds them in the address cache or not, as long as
the cache is about the mapping table there is.
-/

namespace TraceMcp.Decode

open TraceMcp.Lib Reconstructor

/-- Where an address lies: the mapping, and the keys of its location and of its
symbol. -/
structure AddressPlace where
  mapIdx : Nat
  location : Nat × Nat
  symbol : Option (Nat × Nat)

namespace Reconstructor

/-- The place of an address behind a mapping. -/
def addressThrough (r : Reconstructor) (mapIdx : Nat) (map : MappingRecord) (ip : Nat) :
    AddressPlace :=
  match r.imageAt map.path with
  | some ii =>
    let idx := (r.index[ii]?).getD ⟨[], []⟩
    let rel := (idx.relativeAddr ip map.start map.pgoff).getD (ip - map.start)
    ⟨mapIdx, (asU32 ii, rel), (idx.function rel).map fun fr => (asU32 ii, fr.start)⟩
  | none => ⟨mapIdx, (2 ^ 32 - 1 - mapIdx, ip - map.start), none⟩

/-- The place of an address of `pid`, through the newest mapping that covers
it. -/
def addressPlace (r : Reconstructor) (pid ip : Nat) : Option AddressPlace := do
  let mapIdx ← r.findMapping pid ip ip
  let map ← r.mappings[mapIdx]?
  pure (r.addressThrough mapIdx map ip)

end Reconstructor

/-- A key is known by an id, if there is a key. -/
def Known (index : FastMap (Nat × Nat) LocalId) (key : Option (Nat × Nat)) (id : Option LocalId) :
    Prop :=
  id = key.bind index.get ∧ (key.isSome → id.isSome)

/-- The resolution says of an address what its place is. -/
structure Names (S : Tables) (place : Option AddressPlace) (res : Resolved) : Prop where
  map : res.map = place.map AddressPlace.mapIdx
  loc : Known S.locIndex (place.map AddressPlace.location) res.loc
  func : Known S.funcIndex (place.bind AddressPlace.symbol) res.func

/-- Tables that have learnt more: the mappings are the same, and every id is
kept. -/
structure Grows (S S' : Tables) : Prop where
  images : S'.images = S.images
  index : S'.index = S.index
  mappings : S'.mappings = S.mappings
  mapsByPid : S'.mapsByPid = S.mapsByPid
  func : ∀ key id, S.funcIndex.get key = some id → S'.funcIndex.get key = some id
  loc : ∀ key id, S.locIndex.get key = some id → S'.locIndex.get key = some id

theorem Grows.refl (S : Tables) : Grows S S :=
  ⟨rfl, rfl, rfl, rfl, fun _ _ h => h, fun _ _ h => h⟩

theorem Grows.trans {S S' S'' : Tables} (h : Grows S S') (h' : Grows S' S'') : Grows S S'' where
  images := h'.images.trans h.images
  index := h'.index.trans h.index
  mappings := h'.mappings.trans h.mappings
  mapsByPid := h'.mapsByPid.trans h.mapsByPid
  func := fun key id hid => h'.func key id (h.func key id hid)
  loc := fun key id hid => h'.loc key id (h.loc key id hid)

variable {r r' : Reconstructor} {pid : Nat} {place : Option AddressPlace} {res : Resolved}
  {S S' : Tables}

theorem Known.mono {index index' : FastMap (Nat × Nat) LocalId} {key : Option (Nat × Nat)}
    {id : Option LocalId} (h : Known index key id)
    (hgrows : ∀ key id, index.get key = some id → index'.get key = some id) :
    Known index' key id := by
  refine ⟨?_, h.2⟩
  cases key with
  | none => exact h.1
  | some key =>
    obtain ⟨i, rfl⟩ := Option.isSome_iff_exists.mp (h.2 rfl)
    exact (hgrows key i h.1.symm).symm

theorem Names.mono (h : Names S place res) (hgrows : Grows S S') : Names S' place res :=
  ⟨h.map, h.loc.mono hgrows.loc, h.func.mono hgrows.func⟩

/-! ## Interning -/

theorem internFunction_grows (key : Nat) (image : String) (fr : FuncRange) :
    Grows (tables r) (tables (r.internFunction key image fr).1) ∧
      (r.internFunction key image fr).1.funcIndex.get (key, fr.start) =
        some (r.internFunction key image fr).2 := by
  unfold internFunction
  split
  next id hid => exact ⟨.refl _, hid⟩
  next hnone =>
    refine ⟨⟨rfl, rfl, rfl, rfl, fun key' id hid => ?_, fun _ _ h => h⟩,
      FastMap.get_insert_self ..⟩
    show FastMap.get (r.funcIndex.insert (key, fr.start) _) key' = some id
    rw [FastMap.get_insert]
    split
    next heq =>
      -- a key that was there has kept its id
      have hold : r.funcIndex.get key' = some id := hid
      rw [heq, hnone] at hold
      cases hold
    next => exact hid

theorem internLocation_grows (key : Nat) (image : String) (rel ip : Nat) (func : Option LocalId) :
    Grows (tables r) (tables (r.internLocation key image rel ip func).1) ∧
      (r.internLocation key image rel ip func).1.locIndex.get (key, rel) =
        some (r.internLocation key image rel ip func).2 := by
  unfold internLocation
  split
  next id hid => exact ⟨.refl _, hid⟩
  next hnone =>
    refine ⟨⟨rfl, rfl, rfl, rfl, fun _ _ h => h, fun key' id hid => ?_⟩,
      FastMap.get_insert_self ..⟩
    show FastMap.get (r.locIndex.insert (key, rel) _) key' = some id
    rw [FastMap.get_insert]
    split
    next heq =>
      have hold : r.locIndex.get key' = some id := hid
      rw [heq, hnone] at hold
      cases hold
    next => exact hid

theorem known_some {index : FastMap (Nat × Nat) LocalId} {key : Nat × Nat} {id : LocalId}
    (h : index.get key = some id) : Known index (some key) (some id) :=
  ⟨h.symm, fun _ => rfl⟩

theorem known_none {index : FastMap (Nat × Nat) LocalId} : Known index none none :=
  ⟨rfl, fun h => by cases h⟩

/-! ## Resolving -/

/-- A resolution learns, and says what the place of the address is. -/
theorem resolveUncached_names (pid ip : Nat) :
    Grows (tables r) (tables (r.resolveUncached pid ip).1) ∧
      Names (tables (r.resolveUncached pid ip).1) (r.addressPlace pid ip)
        (r.resolveUncached pid ip).2 := by
  unfold resolveUncached addressPlace
  cases r.findMapping pid ip ip with
  | none => exact ⟨.refl _, rfl, known_none, known_none⟩
  | some i =>
    rw [Option.bind_eq_bind, Option.bind_some]
    dsimp only
    cases r.mappings[i]? with
    | none => exact ⟨.refl _, rfl, known_none, known_none⟩
    | some map =>
      rw [Option.bind_eq_bind, Option.bind_some]
      dsimp only
      unfold addressThrough
      cases r.imageAt map.path with
      | none =>
        dsimp only
        have hmissing : Grows (tables r) (tables (r.noteMissingImage map.path)) := by
          rw [show tables (r.noteMissingImage map.path) = tables r from
            congrArg Symbols.tables (noteMissingImage_symbols map.path)]
          exact .refl _
        obtain ⟨hloc, hid⟩ := internLocation_grows (r := r.noteMissingImage map.path)
          (2 ^ 32 - 1 - i) map.path (ip - map.start) ip none
        exact ⟨hmissing.trans hloc, rfl, known_some hid, known_none⟩
      | some ii =>
        dsimp only
        generalize (r.index[ii]?).getD ⟨[], []⟩ = idx
        generalize (idx.relativeAddr ip map.start map.pgoff).getD (ip - map.start) = rel
        cases idx.function rel with
        | none =>
          dsimp only
          obtain ⟨hloc, hid⟩ := internLocation_grows (r := r) (asU32 ii)
            (((r.images[ii]?).map (·.identity.contentHash)).getD "") rel ip none
          exact ⟨hloc, rfl, known_some hid, known_none⟩
        | some fr =>
          dsimp only
          obtain ⟨hfunc, hfid⟩ := internFunction_grows (r := r) (asU32 ii)
            (((r.images[ii]?).map (·.identity.contentHash)).getD "") fr
          generalize r.internFunction (asU32 ii) _ fr = interned at hfunc hfid
          obtain ⟨hloc, hid⟩ := internLocation_grows (r := interned.1) (asU32 ii)
            (((r.images[ii]?).map (·.identity.contentHash)).getD "") rel ip (some interned.2)
          exact ⟨hfunc.trans hloc, rfl, known_some hid, known_some (hloc.func _ _ hfid)⟩

/-- Neither the address cache nor inline attribution is touched. -/
theorem resolveUncached_caches (pid ip : Nat) :
    (r.resolveUncached pid ip).1.ipCache = r.ipCache ∧
      (r.resolveUncached pid ip).1.inline = r.inline := by
  have hlocation : ∀ (r : Reconstructor) key image rel ip func,
      (r.internLocation key image rel ip func).1.ipCache = r.ipCache ∧
        (r.internLocation key image rel ip func).1.inline = r.inline := by
    intro r key image rel ip func
    unfold internLocation
    split <;> exact ⟨rfl, rfl⟩
  unfold resolveUncached
  split
  · exact ⟨rfl, rfl⟩
  · split
    · exact ⟨rfl, rfl⟩
    · split
      · dsimp only
        split
        · rw [(hlocation ..).1, (hlocation ..).2]
          unfold internFunction
          split <;> exact ⟨rfl, rfl⟩
        · exact hlocation ..
      · rw [(hlocation ..).1, (hlocation ..).2]
        exact ⟨congrArg (fun S => S.tables.ipCache) (noteMissingImage_symbols _),
          congrArg (fun S => S.tables.inline) (noteMissingImage_symbols _)⟩

theorem resolve_inline (pid : Nat) (ip : Option Nat) : (r.resolve pid ip).1.inline = r.inline := by
  unfold resolve
  split
  · rfl
  · split
    · rfl
    · exact (resolveUncached_caches pid _).2

theorem resolve_grows (r : Reconstructor) (pid : Nat) (ip : Option Nat) :
    Grows (tables r) (tables (r.resolve pid ip).1) := by
  unfold resolve
  split
  · exact .refl _
  · split
    · exact .refl _
    · obtain ⟨h, -⟩ := resolveUncached_names (r := r) pid _
      exact ⟨h.images, h.index, h.mappings, h.mapsByPid, h.func, h.loc⟩

/-- The address cache is about the mapping table there is. -/
def Coherent (r : Reconstructor) : Prop :=
  ∀ pid ip res, r.ipCache.get (pid, ip) = some res →
    Names (tables r) (r.addressPlace pid ip) res

theorem findMapping_congr (hmaps : r'.mapsByPid.get pid = r.mapsByPid.get pid)
    (hmappings : r'.mappings = r.mappings) (lo hi : Nat) :
    r'.findMapping pid lo hi = r.findMapping pid lo hi := by
  unfold findMapping
  rw [hmaps, hmappings]

theorem addressThrough_congr (himages : r'.images = r.images) (hindex : r'.index = r.index)
    (i : Nat) (map : MappingRecord) (ip : Nat) :
    r'.addressThrough i map ip = r.addressThrough i map ip := by
  unfold addressThrough imageAt
  rw [himages, hindex]

theorem Grows.addressPlace (h : Grows (tables r) (tables r')) (pid ip : Nat) :
    r'.addressPlace pid ip = r.addressPlace pid ip := by
  have hmaps : r'.mapsByPid = r.mapsByPid := h.mapsByPid
  have hmappings : r'.mappings = r.mappings := h.mappings
  unfold Reconstructor.addressPlace
  rw [findMapping_congr (by rw [hmaps]) hmappings, hmappings]
  simp only [addressThrough_congr h.images h.index]

/-- Resolving keeps the cache coherent, and returns what the place of the
address is. -/
theorem resolve_names (h : Coherent r) (pid : Nat) (ip : Option Nat) :
    Coherent (r.resolve pid ip).1 ∧
      Names (tables (r.resolve pid ip).1) (ip.bind (r.addressPlace pid)) (r.resolve pid ip).2 := by
  have hgrows := resolve_grows r pid ip
  unfold resolve at hgrows ⊢
  cases ip with
  | none => exact ⟨h, rfl, known_none, known_none⟩
  | some ip =>
    dsimp only at hgrows ⊢
    rw [Option.bind_some]
    cases hcache : r.ipCache.get (pid, ip) with
    | some res => exact ⟨h, h pid ip res hcache⟩
    | none =>
      rw [hcache] at hgrows
      dsimp only at hgrows ⊢
      obtain ⟨-, hnames⟩ := resolveUncached_names (r := r) pid ip
      have hcached := (resolveUncached_caches (r := r) pid ip).1
      generalize r.resolveUncached pid ip = u at hgrows hnames hcached
      have hnames' : Names (tables { u.1 with ipCache := u.1.ipCache.insert (pid, ip) u.2 })
          (r.addressPlace pid ip) u.2 := ⟨hnames.map, hnames.loc, hnames.func⟩
      refine ⟨fun pid' ip' res hget => ?_, hnames'⟩
      rw [hgrows.addressPlace]
      have hget' : FastMap.get (u.1.ipCache.insert (pid, ip) u.2) (pid', ip') = some res := hget
      rw [FastMap.get_insert, hcached] at hget'
      split at hget'
      next heq =>
        obtain ⟨rfl, rfl⟩ := Prod.mk.inj heq
        obtain rfl := Option.some.inj hget'
        exact hnames'
      next => exact (h pid' ip' res hget').mono hgrows

/-! ## Samples and mappings -/

theorem arrived_tables (r : Reconstructor) (s : Sample) : tables (r.arrived s) = tables r := by
  have hsymbols : (symbols (r.arrived s)).tables = tables r := by
    rw [arrived_symbols, Symbols.note, Symbols.modRunner]
    split <;> exact ensure_tables ..
  exact hsymbols

theorem handed_tables (r : Reconstructor) (rec : RawRecord) : tables (r.handed rec) = tables r :=
  congrArg Symbols.tables (handed_symbols rec)

theorem attributing_grows (r : Reconstructor) (s : Sample) :
    Grows (tables r) (tables (r.attributing s)) := by
  have hsrc := resolve_grows (r.arrived s) s.pid s.ip
  rw [arrived_tables] at hsrc
  exact hsrc.trans (resolve_grows _ s.pid s.addr)

theorem attributing_inline (r : Reconstructor) (s : Sample) :
    (r.attributing s).inline = r.inline := by
  unfold attributing
  rw [resolve_inline, resolve_inline]
  exact congrArg Tables.inline (arrived_tables r s)

/-- The block of a sample is no news to the tables. -/
theorem attributed_grows (r : Reconstructor) (s : Sample) :
    Grows (tables (r.attributing s)) (tables (r.attributed s)) ∧
      (r.attributed s).ipCache = (r.attributing s).ipCache := by
  cases hinline : (r.attributing s).inline with
  | none =>
    have hoff : (r.attributing s).inline.isNone = true := by rw [hinline, Option.isNone_none]
    unfold attributed
    rw [attributeSample_eq, if_pos hoff]
    exact ⟨.refl _, rfl⟩
  | some inl =>
    obtain ⟨inl', htables, -⟩ := attributed_tables hinline
    refine ⟨?_, congrArg Tables.ipCache htables⟩
    rw [htables]
    exact ⟨rfl, rfl, rfl, rfl, fun _ _ h => h, fun _ _ h => h⟩

/-- A cache stays coherent while the tables only learn. -/
theorem Coherent.grows (h : Coherent r) (hgrows : Grows (tables r) (tables r'))
    (hcache : r'.ipCache = r.ipCache) : Coherent r' := by
  intro pid ip res hget
  rw [hgrows.addressPlace]
  exact (h pid ip res (hcache ▸ hget)).mono hgrows

theorem Coherent.of_tables (h : Coherent r) (ht : tables r' = tables r) : Coherent r' :=
  h.grows (ht ▸ .refl _) (congrArg Tables.ipCache ht)

theorem attributing_coherent (h : Coherent r) (s : Sample) : Coherent (r.attributing s) :=
  (resolve_names ((resolve_names (h.of_tables (arrived_tables r s)) s.pid s.ip).1) s.pid s.addr).1

theorem attributed_coherent (h : Coherent r) (s : Sample) : Coherent (r.attributed s) :=
  (attributing_coherent h s).grows (attributed_grows r s).1 (attributed_grows r s).2

end TraceMcp.Decode
