import TraceMcp.Lib.Json

/-!
# A text has one reading

Two values with one text are the same value (`text_inj`), as long as their
numbers are written in digits. The texts end themselves: `text_append_inj`
says so with anything but a digit behind them, by recursion on the value, and
the escapes inside quotes are undone one character at a time (`unescape`). No
text holds a NUL, so texts can be joined by it (`mark_append_inj`).
-/

namespace TraceMcp.Lib

namespace Text

theorem decimal_inj {n m : Nat} (h : decimal n = decimal m) : n = m := by
  have hn : fromStrRadix (n + m + 1) 10 (decimal n) = some n := fromStrRadix_decimal (by omega)
  have hm : fromStrRadix (n + m + 1) 10 (decimal m) = some m := fromStrRadix_decimal (by omega)
  rw [h, hm] at hn
  exact (Option.some.inj hn).symm

/-- What stands before the first mark, and after it. -/
theorem mark_append_inj {α : Type} {x : α} {p q s t : List α} (hp : x ∉ p) (hq : x ∉ q)
    (h : p ++ x :: s = q ++ x :: t) : p = q ∧ s = t := by
  induction p generalizing q with
  | nil =>
    cases q with
    | nil => exact ⟨rfl, (List.cons.inj h).2⟩
    | cons b q => exact absurd ((List.cons.inj h).1 ▸ List.mem_cons_self) hq
  | cons a p ih =>
    cases q with
    | nil => exact absurd ((List.cons.inj h).1 ▸ List.mem_cons_self) hp
    | cons b q =>
      obtain ⟨rfl, htail⟩ := List.cons.inj h
      obtain ⟨rfl, hst⟩ := ih (fun hx => hp (List.mem_cons_of_mem _ hx))
        (fun hx => hq (List.mem_cons_of_mem _ hx)) htail
      exact ⟨rfl, hst⟩

end Text

namespace Json

/-! ## Escapes -/

def hexDigit (c : Char) : Nat := if c.isDigit then c.toNat - 48 else c.toNat - 87

/-- The character after a backslash, or the code it announces. -/
def unescapeMark : List Char → Option (Char × List Char)
  | [] => none
  | c :: s =>
    if c = 'n' then some ('\n', s)
    else if c = 'r' then some ('\r', s)
    else if c = 't' then some ('\t', s)
    else if c = 'b' then some (Char.ofNat 8, s)
    else if c = 'f' then some (Char.ofNat 12, s)
    else if c = 'u' then
      match s with
      | _ :: _ :: a :: b :: s => some (Char.ofNat (16 * hexDigit a + hexDigit b), s)
      | _ => none
    else some (c, s)

/-- The first character, and what follows it. -/
def unescape : List Char → Option (Char × List Char)
  | [] => none
  | c :: s => if c = '\\' then unescapeMark s else some (c, s)

theorem hexDigit_digitChar :
    ∀ n < 32, 16 * hexDigit (Nat.digitChar (n / 16)) + hexDigit (Nat.digitChar (n % 16)) = n := by
  decide

theorem unescape_escape (c : Char) (s : List Char) : unescape (escape c ++ s) = some (c, s) := by
  unfold escape
  split
  next h => subst h; rfl
  split
  next h => subst h; rfl
  split
  next h => subst h; rfl
  split
  next h => subst h; rfl
  split
  next h => subst h; rfl
  split
  next h =>
    show some (Char.ofNat 8, s) = some (c, s)
    rw [← h, Char.ofNat_toNat]
  split
  next h =>
    show some (Char.ofNat 12, s) = some (c, s)
    rw [← h, Char.ofNat_toNat]
  split
  next h =>
    show some (Char.ofNat (16 * hexDigit (Nat.digitChar (c.toNat / 16)) +
      hexDigit (Nat.digitChar (c.toNat % 16))), s) = some (c, s)
    rw [hexDigit_digitChar c.toNat h, Char.ofNat_toNat]
  next hslash _ _ _ _ _ _ =>
    show unescape (c :: s) = some (c, s)
    rw [unescape, if_neg hslash]

/-- No escape starts with a quote. -/
theorem escape_head (c : Char) : ∃ d s, escape c = d :: s ∧ d ≠ '"' := by
  unfold escape
  split
  next => exact ⟨_, _, rfl, by decide⟩
  next hquote =>
    repeat' split
    all_goals first
      | exact ⟨_, _, rfl, by decide⟩
      | exact ⟨_, _, rfl, hquote⟩

theorem escape_append_inj {c d : Char} {s t : List Char} (h : escape c ++ s = escape d ++ t) :
    c = d ∧ s = t := by
  have hread := congrArg unescape h
  rw [unescape_escape, unescape_escape] at hread
  exact Prod.mk.inj (Option.some.inj hread)

theorem quote_append (p s : List Char) : quote p ++ s = '"' :: (p.flatMap escape ++ '"' :: s) := by
  show '"' :: ((p.flatMap escape ++ ['"']) ++ s) = _
  rw [List.append_assoc, List.singleton_append]

theorem quote_append_inj {p q s t : List Char} (h : quote p ++ s = quote q ++ t) :
    p = q ∧ s = t := by
  rw [quote_append, quote_append] at h
  have hbody := (List.cons.inj h).2
  clear h
  induction p generalizing q with
  | nil =>
    cases q with
    | nil => exact ⟨rfl, (List.cons.inj hbody).2⟩
    | cons c q =>
      obtain ⟨d, e, he, hd⟩ := escape_head c
      rw [List.flatMap_cons, he] at hbody
      exact absurd (List.cons.inj hbody).1.symm hd
  | cons c p ih =>
    cases q with
    | nil =>
      obtain ⟨d, e, he, hd⟩ := escape_head c
      rw [List.flatMap_cons, he] at hbody
      exact absurd (List.cons.inj hbody).1 hd
    | cons d q =>
      rw [List.flatMap_cons, List.flatMap_cons, List.append_assoc, List.append_assoc] at hbody
      obtain ⟨rfl, hrest⟩ := escape_append_inj hbody
      obtain ⟨rfl, hst⟩ := ih hrest
      exact ⟨rfl, hst⟩

/-! ## Values -/

mutual

/-- The numbers of the value are written in digits. -/
def Digital : Json → Prop
  | null | bool _ | str _ => True
  | num t => t ≠ [] ∧ ∀ c ∈ t, c.isDigit = true
  | arr items => DigitalItems items
  | obj fields => DigitalFields fields

def DigitalItems : List Json → Prop
  | [] => True
  | v :: vs => Digital v ∧ DigitalItems vs

def DigitalFields : List (String × Json) → Prop
  | [] => True
  | (_, v) :: fs => Digital v ∧ DigitalFields fs

end

/-- What a text is told from by its first character. -/
inductive Kind
  | null
  | bool
  | num
  | str
  | arr
  | obj
  | mark
  deriving DecidableEq

def kind : Json → Kind
  | null => .null
  | bool _ => .bool
  | num _ => .num
  | str _ => .str
  | arr _ => .arr
  | obj _ => .obj

def kindOf (c : Char) : Kind :=
  if c.isDigit then .num
  else if c = 'n' then .null
  else if c = 't' ∨ c = 'f' then .bool
  else if c = '"' then .str
  else if c = '[' then .arr
  else if c = '{' then .obj
  else .mark

theorem text_lead {v : Json} (h : Digital v) : ∃ c s, text v = c :: s ∧ kindOf c = kind v := by
  cases v with
  | null => exact ⟨'n', _, rfl, rfl⟩
  | bool b =>
    cases b with
    | true => exact ⟨'t', _, rfl, rfl⟩
    | false => exact ⟨'f', _, rfl, rfl⟩
  | num t =>
    obtain ⟨hne, hdigits⟩ := h
    obtain ⟨c, s, rfl⟩ := List.exists_cons_of_ne_nil hne
    exact ⟨c, s, rfl, if_pos (hdigits c List.mem_cons_self)⟩
  | str s => exact ⟨'"', _, rfl, rfl⟩
  | arr items => exact ⟨'[', _, rfl, rfl⟩
  | obj fields => exact ⟨'{', _, rfl, rfl⟩

theorem kind_eq {v w : Json} {s t : List Char} (hv : Digital v) (hw : Digital w)
    (h : text v ++ s = text w ++ t) : kind v = kind w := by
  obtain ⟨c, vs, hvs, hc⟩ := text_lead hv
  obtain ⟨d, ws, hws, hd⟩ := text_lead hw
  rw [hvs, hws] at h
  rw [← hc, ← hd, (List.cons.inj h).1]

theorem text_ne_mark {v : Json} {c : Char} {s t : List Char} (hv : Digital v)
    (hc : kindOf c = .mark) : text v ++ s ≠ c :: t := by
  intro h
  obtain ⟨d, vs, hvs, hd⟩ := text_lead hv
  rw [hvs] at h
  rw [(List.cons.inj h).1, hc] at hd
  cases v <;> cases hd

/-- No digit comes next. -/
def Ends (s : List Char) : Prop := ∀ c ∈ s.head?, c.isDigit = false

theorem digits_append_inj {p q s t : List Char} (hp : ∀ c ∈ p, c.isDigit = true)
    (hq : ∀ c ∈ q, c.isDigit = true) (hs : Ends s) (ht : Ends t) (h : p ++ s = q ++ t) :
    p = q ∧ s = t := by
  induction p generalizing q with
  | nil =>
    cases q with
    | nil => exact ⟨rfl, h⟩
    | cons c q =>
      have hdigit := hs c (by rw [show s = _ from h]; rfl)
      rw [hq c List.mem_cons_self] at hdigit
      cases hdigit
  | cons c p ih =>
    cases q with
    | nil =>
      have hdigit := ht c (by rw [← show _ = t from h]; rfl)
      rw [hp c List.mem_cons_self] at hdigit
      cases hdigit
    | cons d q =>
      obtain ⟨rfl, hrest⟩ := List.cons.inj h
      obtain ⟨rfl, hst⟩ := ih (fun c hc => hp c (List.mem_cons_of_mem _ hc))
        (fun c hc => hq c (List.mem_cons_of_mem _ hc)) hrest
      exact ⟨rfl, hst⟩

/-- The items after the first, the closing bracket and `s`. -/
def moreItems : List Json → List Char → List Char
  | [], s => ']' :: s
  | v :: vs, s => ',' :: (text v ++ moreItems vs s)

/-- The fields after the first, the closing brace and `s`. -/
def moreFields : List (String × Json) → List Char → List Char
  | [], s => '}' :: s
  | (k, v) :: fs, s => ',' :: (quote k.toList ++ ':' :: (text v ++ moreFields fs s))

theorem ends_moreItems (vs : List Json) (s : List Char) : Ends (moreItems vs s) := by
  cases vs <;> rintro c ⟨⟩ <;> rfl

theorem ends_moreFields (fs : Fields) (s : List Char) : Ends (moreFields fs s) := by
  rcases fs with - | ⟨⟨k, v⟩, fs⟩ <;> rintro c ⟨⟩ <;> rfl

theorem join_items (v : Json) (vs : List Json) (s : List Char) :
    List.intercalate [','] (itemTexts (v :: vs)) ++ ']' :: s = text v ++ moreItems vs s := by
  induction vs generalizing v with
  | nil =>
    rw [itemTexts, itemTexts, List.intercalate_singleton]
    rfl
  | cons w vs ih =>
    rw [itemTexts, itemTexts, List.intercalate_cons_cons, List.append_assoc, List.append_assoc,
      ← itemTexts, ih w]
    rfl

theorem join_fields (k : String) (v : Json) (fs : Fields) (s : List Char) :
    List.intercalate [','] (fieldTexts ((k, v) :: fs)) ++ '}' :: s =
      quote k.toList ++ ':' :: (text v ++ moreFields fs s) := by
  induction fs generalizing k v with
  | nil =>
    rw [fieldTexts, fieldTexts, List.intercalate_singleton, List.append_assoc, List.cons_append]
    rfl
  | cons e fs ih =>
    obtain ⟨k', v'⟩ := e
    rw [fieldTexts, fieldTexts, List.intercalate_cons_cons, List.append_assoc, List.append_assoc,
      ← fieldTexts, ih k' v', List.append_assoc, List.cons_append]
    rfl

theorem arr_append (items : List Json) (s : List Char) : text (arr items) ++ s =
    '[' :: (List.intercalate [','] (itemTexts items) ++ ']' :: s) := by
  show '[' :: ((_ ++ [']']) ++ s) = _
  rw [List.append_assoc, List.singleton_append]

theorem obj_append (fields : Fields) (s : List Char) : text (obj fields) ++ s =
    '{' :: (List.intercalate [','] (fieldTexts fields) ++ '}' :: s) := by
  show '{' :: ((_ ++ ['}']) ++ s) = _
  rw [List.append_assoc, List.singleton_append]

mutual

theorem text_append_inj {v w : Json} {s t : List Char} (hv : Digital v) (hw : Digital w)
    (hs : Ends s) (ht : Ends t) (h : text v ++ s = text w ++ t) : v = w ∧ s = t := by
  have hkind := kind_eq hv hw h
  match v, w, hv, hw, hkind, h with
  | .null, .null, _, _, _, h => exact ⟨rfl, List.append_cancel_left h⟩
  | .bool b, .bool d, _, _, _, h =>
    cases b <;> cases d
    · exact ⟨rfl, List.append_cancel_left h⟩
    · exact absurd (List.cons.inj h).1 (by decide)
    · exact absurd (List.cons.inj h).1 (by decide)
    · exact ⟨rfl, List.append_cancel_left h⟩
  | .num p, .num q, hp, hq, _, h =>
    obtain ⟨rfl, hst⟩ := digits_append_inj hp.2 hq.2 hs ht h
    exact ⟨rfl, hst⟩
  | .str p, .str q, _, _, _, h =>
    obtain ⟨rfl, hst⟩ := quote_append_inj h
    exact ⟨rfl, hst⟩
  | .arr vs, .arr ws, hvs, hws, _, h =>
    rw [arr_append, arr_append] at h
    have hbody := (List.cons.inj h).2
    match vs, ws, hvs, hws, hbody with
    | [], [], _, _, hbody => exact ⟨rfl, (List.cons.inj hbody).2⟩
    | [], w :: ws, _, hws, hbody =>
      rw [join_items] at hbody
      exact absurd hbody.symm (text_ne_mark hws.1 (by decide))
    | v :: vs, [], hvs, _, hbody =>
      rw [join_items] at hbody
      exact absurd hbody (text_ne_mark hvs.1 (by decide))
    | v :: vs, w :: ws, hvs, hws, hbody =>
      rw [join_items, join_items] at hbody
      obtain ⟨rfl, hmore⟩ := text_append_inj hvs.1 hws.1 (ends_moreItems vs s)
        (ends_moreItems ws t) hbody
      obtain ⟨rfl, hst⟩ := moreItems_inj hvs.2 hws.2 hmore
      exact ⟨rfl, hst⟩
  | .obj fs, .obj gs, hfs, hgs, _, h =>
    rw [obj_append, obj_append] at h
    have hbody := (List.cons.inj h).2
    match fs, gs, hfs, hgs, hbody with
    | [], [], _, _, hbody => exact ⟨rfl, (List.cons.inj hbody).2⟩
    | [], (k, w) :: gs, _, _, hbody =>
      rw [join_fields] at hbody
      exact absurd (List.cons.inj hbody).1 (by decide)
    | (k, v) :: fs, [], _, _, hbody =>
      rw [join_fields] at hbody
      exact absurd (List.cons.inj hbody).1 (by decide)
    | (k, v) :: fs, (k', w) :: gs, hfs, hgs, hbody =>
      rw [join_fields, join_fields] at hbody
      obtain ⟨hk, hrest⟩ := quote_append_inj hbody
      obtain ⟨rfl, hmore⟩ := text_append_inj hfs.1 hgs.1 (ends_moreFields fs s)
        (ends_moreFields gs t) (List.cons.inj hrest).2
      obtain ⟨rfl, hst⟩ := moreFields_inj hfs.2 hgs.2 hmore
      rw [String.toList_inj.mp hk]
      exact ⟨rfl, hst⟩

theorem moreItems_inj {vs ws : List Json} {s t : List Char} (hvs : DigitalItems vs)
    (hws : DigitalItems ws) (h : moreItems vs s = moreItems ws t) : vs = ws ∧ s = t := by
  match vs, ws, hvs, hws, h with
  | [], [], _, _, h => exact ⟨rfl, (List.cons.inj h).2⟩
  | [], w :: ws, _, _, h => exact absurd (List.cons.inj h).1 (by decide)
  | v :: vs, [], _, _, h => exact absurd (List.cons.inj h).1 (by decide)
  | v :: vs, w :: ws, hvs, hws, h =>
    obtain ⟨rfl, hmore⟩ := text_append_inj hvs.1 hws.1 (ends_moreItems vs s)
      (ends_moreItems ws t) (List.cons.inj h).2
    obtain ⟨rfl, hst⟩ := moreItems_inj hvs.2 hws.2 hmore
    exact ⟨rfl, hst⟩

theorem moreFields_inj {fs gs : Fields} {s t : List Char} (hfs : DigitalFields fs)
    (hgs : DigitalFields gs) (h : moreFields fs s = moreFields gs t) : fs = gs ∧ s = t := by
  match fs, gs, hfs, hgs, h with
  | [], [], _, _, h => exact ⟨rfl, (List.cons.inj h).2⟩
  | [], (k, w) :: gs, _, _, h => exact absurd (List.cons.inj h).1 (by decide)
  | (k, v) :: fs, [], _, _, h => exact absurd (List.cons.inj h).1 (by decide)
  | (k, v) :: fs, (k', w) :: gs, hfs, hgs, h =>
    obtain ⟨hk, hrest⟩ := quote_append_inj (List.cons.inj h).2
    obtain ⟨rfl, hmore⟩ := text_append_inj hfs.1 hgs.1 (ends_moreFields fs s)
      (ends_moreFields gs t) (List.cons.inj hrest).2
    obtain ⟨rfl, hst⟩ := moreFields_inj hfs.2 hgs.2 hmore
    rw [String.toList_inj.mp hk]
    exact ⟨rfl, hst⟩

end

/-- A text is the text of one value. -/
theorem text_inj {v w : Json} (hv : Digital v) (hw : Digital w) (h : text v = text w) : v = w := by
  have hends : Ends [] := nofun
  refine (text_append_inj (s := []) (t := []) hv hw hends hends ?_).1
  rw [h]

/-! ## NUL -/

theorem nul_notMem_escape (c : Char) : Char.ofNat 0 ∉ escape c := by
  unfold escape
  split
  next => decide
  split
  next => decide
  split
  next => decide
  split
  next => decide
  split
  next => decide
  split
  next => decide
  split
  next => decide
  split
  next =>
    intro hmem
    simp at hmem
  next hlarge =>
    intro hmem
    rw [← List.mem_singleton.mp hmem] at hlarge
    exact hlarge (by decide)

theorem nul_notMem_quote (s : List Char) : Char.ofNat 0 ∉ quote s := by
  intro hmem
  rcases List.mem_cons.mp hmem with heq | hbody
  · cases heq
  · rcases List.mem_append.mp hbody with hin | hlast
    · obtain ⟨c, -, hc⟩ := List.mem_flatMap.mp hin
      exact nul_notMem_escape c hc
    · cases List.mem_singleton.mp hlast

theorem nul_notMem_intercalate {ts : List (List Char)} (h : ∀ t ∈ ts, Char.ofNat 0 ∉ t) :
    Char.ofNat 0 ∉ List.intercalate [','] ts := by
  induction ts with
  | nil => exact List.not_mem_nil
  | cons t ts ih =>
    have ht := h t List.mem_cons_self
    cases ts with
    | nil => rwa [List.intercalate_singleton]
    | cons u us =>
      rw [List.intercalate_cons_cons]
      intro hmem
      rcases List.mem_append.mp hmem with hfirst | hrest
      · rcases List.mem_append.mp hfirst with hin | hcomma
        · exact ht hin
        · cases List.mem_singleton.mp hcomma
      · exact ih (fun t ht => h t (List.mem_cons_of_mem _ ht)) hrest

mutual

theorem nul_notMem_text {v : Json} (hv : Digital v) : Char.ofNat 0 ∉ text v := by
  match v, hv with
  | .null, _ => decide
  | .bool b, _ => cases b <;> decide
  | .num t, hv =>
    intro hmem
    cases hv.2 _ hmem
  | .str s, _ => exact nul_notMem_quote s
  | .arr items, hv =>
    have hitems := nul_notMem_intercalate (nul_notMem_items hv)
    rw [← List.append_nil (text _), arr_append]
    simpa using hitems
  | .obj fields, hv =>
    have hfields := nul_notMem_intercalate (nul_notMem_fields hv)
    rw [← List.append_nil (text _), obj_append]
    simpa using hfields

theorem nul_notMem_items {vs : List Json} (hvs : DigitalItems vs) :
    ∀ t ∈ itemTexts vs, Char.ofNat 0 ∉ t := by
  match vs, hvs with
  | [], _ => exact List.forall_mem_nil _
  | v :: vs, hvs =>
    exact List.forall_mem_cons.mpr ⟨nul_notMem_text hvs.1, nul_notMem_items hvs.2⟩

theorem nul_notMem_fields {fs : Fields} (hfs : DigitalFields fs) :
    ∀ t ∈ fieldTexts fs, Char.ofNat 0 ∉ t := by
  match fs, hfs with
  | [], _ => exact List.forall_mem_nil _
  | (k, v) :: fs, hfs =>
    refine List.forall_mem_cons.mpr ⟨fun hmem => ?_, nul_notMem_fields hfs.2⟩
    rcases List.mem_append.mp hmem with hkey | hvalue
    · exact nul_notMem_quote _ hkey
    · rcases List.mem_cons.mp hvalue with heq | hvalue
      · cases heq
      · exact nul_notMem_text hfs.1 hvalue

end

/-! ## Building values -/

def ofNat (n : Nat) : Json := num (Text.decimal n)

def ofString (s : String) : Json := str s.toList

/-- `null` where there is none. -/
def ofOption {α : Type} (f : α → Json) : Option α → Json
  | none => null
  | some a => f a

/-- A field that is left out where there is none. -/
def optional (k : String) : Option Json → Fields
  | none => []
  | some v => [(k, v)]

section Build

variable {α : Type} {f : α → Json} {k k' : String} {m m' : Fields} {v : Option Json}

theorem digital_ofNat (n : Nat) : Digital (ofNat n) :=
  ⟨Text.decimal_ne_nil n, Text.decimal_isDigit n⟩

theorem ofNat_inj {n m : Nat} (h : ofNat n = ofNat m) : n = m := Text.decimal_inj (num.inj h)

theorem ofString_inj {s t : String} (h : ofString s = ofString t) : s = t :=
  String.toList_inj.mp (str.inj h)

theorem ofOption_inj (hf : ∀ a b, f a = f b → a = b) (hnull : ∀ a, f a ≠ null) {a b : Option α}
    (h : ofOption f a = ofOption f b) : a = b := by
  cases a with
  | none =>
    cases b with
    | none => rfl
    | some b => exact absurd h.symm (hnull b)
  | some a =>
    cases b with
    | none => exact absurd h (hnull a)
    | some b => rw [hf a b h]

theorem arr_map_inj (hf : ∀ a b, f a = f b → a = b) {l l' : List α}
    (h : arr (l.map f) = arr (l'.map f)) : l = l' :=
  List.map_injective_iff.mpr (fun a b => hf a b) (arr.inj h)

theorem digitalItems_map (hf : ∀ a, Digital (f a)) (l : List α) : DigitalItems (l.map f) := by
  induction l with
  | nil => trivial
  | cons a l ih => exact ⟨hf a, ih⟩

theorem digitalFields_append (h : DigitalFields m) (h' : DigitalFields m') :
    DigitalFields (m ++ m') := by
  induction m with
  | nil => exact h'
  | cons e m ih => exact ⟨h.1, ih h.2⟩

theorem digitalFields_optional (h : ∀ w ∈ v, Digital w) : DigitalFields (optional k v) := by
  cases v with
  | none => trivial
  | some w => exact ⟨h w rfl, trivial⟩

theorem get_append : Fields.get k (m ++ m') = (Fields.get k m).or (Fields.get k m') := by
  induction m with
  | nil => rfl
  | cons e m ih =>
    rw [List.cons_append, Fields.get, Fields.get]
    split
    next => rfl
    next => exact ih

theorem get_optional : Fields.get k (optional k' v) = if k' = k then v else none := by
  cases v with
  | none => exact (ite_self _).symm
  | some w => rfl

end Build

end Json

end TraceMcp.Lib
