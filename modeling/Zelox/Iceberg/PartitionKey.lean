import Zelox.Lib.PrefixCode

/-!
# The bytes of partition keys

`PartitionKey::new` of `spec/delete_index.rs` writes the literals of a partition one after the
other, each behind a byte that says whether it is null.  A primitive is written behind a tag of its
type, a collection behind its length only.  So keys tell tuples apart that have the same kinds of
literals at the same places, as the partitions of a spec do, or literals that differ in what is
written first; but a list of one null reads like a boolean followed by nulls, and so it is for any
two kinds (`new_eq_iff`).
-/

namespace Zelox.Iceberg.Encoding

open PrefixCode List

/-- Integers and the bit patterns of floats are words of their width. -/
inductive PrimitiveLiteral where
  | boolean (b : Bool)
  | int (i : BitVec 32)
  | long (l : BitVec 64)
  | float (bits : BitVec 32)
  | double (bits : BitVec 64)
  | int128 (i : BitVec 128)
  | uInt128 (i : BitVec 128)
  | string (s : String)
  | binary (b : List UInt8)
deriving DecidableEq

inductive Literal where
  | primitive (p : PrimitiveLiteral)
  | struct (fields : List (String × Option Literal))
  | list (items : List (Option Literal))
  | map (entries : List (Literal × Option Literal))

def toLeBytes {w : ℕ} (x : BitVec w) : List UInt8 := leBytes (w / 8) x.toNat

/-- The lengths are cut to 32 bits. -/
def lenBytes (len : ℕ) : List UInt8 := leBytes 4 len

def sized (bytes : List UInt8) : List UInt8 := lenBytes bytes.length ++ bytes

def asBytes (s : String) : List UInt8 := s.toByteArray.data.toList

def encodePrimitive : PrimitiveLiteral → List UInt8
  | .boolean b => [0x01, if b then 1 else 0]
  | .int i => 0x02 :: toLeBytes i
  | .long l => 0x03 :: toLeBytes l
  | .float bits => 0x04 :: toLeBytes bits
  | .double bits => 0x05 :: toLeBytes bits
  | .int128 i => 0x06 :: toLeBytes i
  | .uInt128 i => 0x07 :: toLeBytes i
  | .string s => 0x08 :: sized (asBytes s)
  | .binary b => 0x09 :: sized b

mutual

def encodeLiteral : Literal → List UInt8
  | .primitive p => encodePrimitive p
  | .struct fields => lenBytes fields.length ++ encodeFields fields
  | .list items => lenBytes items.length ++ encodeItems items
  | .map entries => lenBytes entries.length ++ encodeEntries entries

def encodeOption : Option Literal → List UInt8
  | none => [0]
  | some l => 1 :: encodeLiteral l

def encodeFields : List (String × Option Literal) → List UInt8
  | [] => []
  | (name, inner) :: fields =>
    sized (asBytes name) ++ encodeOption inner ++ encodeFields fields

def encodeItems : List (Option Literal) → List UInt8
  | [] => []
  | item :: items => encodeOption item ++ encodeItems items

def encodeEntries : List (Literal × Option Literal) → List UInt8
  | [] => []
  | (k, v) :: entries => encodeLiteral k ++ encodeOption v ++ encodeEntries entries

end

structure PartitionKey where
  specId : Int
  bytes : List UInt8
deriving DecidableEq

def PartitionKey.new (specId : Int) (values : List (Option Literal)) : PartitionKey :=
  { specId := specId, bytes := encodeItems values }

/-! ### Literals that are told apart -/

/-- What is written first: the tag of a primitive, the length of a collection. -/
def Literal.lead : Literal → List UInt8
  | .primitive p => (encodePrimitive p).take 1
  | .struct fields => lenBytes fields.length
  | .list items => lenBytes items.length
  | .map entries => lenBytes entries.length

def Short {α : Type} (as : List α) : Prop := as.length < 2 ^ 32

def PrimitiveLiteral.Short : PrimitiveLiteral → Prop
  | .string s => Encoding.Short (asBytes s)
  | .binary b => Encoding.Short b
  | _ => True

/-- Literals that differ in what is written first, or literals of one kind with such literals at the
same places in them, whose strings, byte strings and collections are shorter than `2 ^ 32`. -/
inductive Apart : Literal → Literal → Prop
  | lead {a b : Literal} {i : ℕ} {x y : UInt8} (ha : a.lead[i]? = some x) (hb : b.lead[i]? = some y)
    (h : x ≠ y) : Apart a b
  | primitive {p q : PrimitiveLiteral} (hp : p.Short) (hq : q.Short) :
    Apart (.primitive p) (.primitive q)
  | struct {as bs : List (String × Option Literal)} (ha : Short as) (hb : Short bs)
    (hnames : ∀ f ∈ as ++ bs, Short (asBytes f.1))
    (h : ∀ (i : ℕ) a b, as[i]? = some a → bs[i]? = some b → ∀ x ∈ a.2, ∀ y ∈ b.2, Apart x y) :
    Apart (.struct as) (.struct bs)
  | list {as bs : List (Option Literal)} (ha : Short as) (hb : Short bs)
    (h : ∀ (i : ℕ) a b, as[i]? = some a → bs[i]? = some b → ∀ x ∈ a, ∀ y ∈ b, Apart x y) :
    Apart (.list as) (.list bs)
  | map {as bs : List (Literal × Option Literal)} (ha : Short as) (hb : Short bs)
    (hkeys : ∀ (i : ℕ) a b, as[i]? = some a → bs[i]? = some b → Apart a.1 b.1)
    (h : ∀ (i : ℕ) a b, as[i]? = some a → bs[i]? = some b → ∀ x ∈ a.2, ∀ y ∈ b.2, Apart x y) :
    Apart (.map as) (.map bs)

theorem encodeItems_eq (items : List (Option Literal)) :
    encodeItems items = items.flatMap encodeOption := by
  induction items with
  | nil => rfl
  | cons item items ih => simp [encodeItems, ih]

theorem encodeFields_eq (fields : List (String × Option Literal)) : encodeFields fields =
    fields.flatMap fun f => sized (asBytes f.1) ++ encodeOption f.2 := by
  induction fields with
  | nil => rfl
  | cons f fields ih => simp [encodeFields, ih]

theorem encodeEntries_eq (entries : List (Literal × Option Literal)) : encodeEntries entries =
    entries.flatMap fun e => encodeLiteral e.1 ++ encodeOption e.2 := by
  induction entries with
  | nil => rfl
  | cons e entries ih => simp [encodeEntries, ih]

/-! ### Codes are told apart -/

theorem cancels_toLeBytes {w : ℕ} (hw : 2 ^ w = 256 ^ (w / 8)) (x y : BitVec w) :
    Cancels toLeBytes x y := by
  intro u v h
  obtain ⟨hxy, huv⟩ := cancel_leBytes (hw ▸ x.isLt) (hw ▸ y.isLt) h
  exact ⟨BitVec.eq_of_toNat_eq hxy, huv⟩

theorem cancels_sized {a b : List UInt8} (ha : Short a) (hb : Short b) : Cancels sized a b := by
  intro u v h
  unfold sized at h
  rw [append_assoc, append_assoc] at h
  obtain ⟨hlen, hrest⟩ := cancel_leBytes ha hb h
  exact append_inj hrest hlen

theorem cancels_string {s t : String} (hs : Short (asBytes s)) (ht : Short (asBytes t)) :
    Cancels (fun s => sized (asBytes s)) s t := by
  intro u v h
  obtain ⟨hst, huv⟩ := cancels_sized hs ht u v h
  exact ⟨String.toByteArray_inj.mp (ByteArray.ext (Array.toList_inj.mp hst)), huv⟩

theorem cancels_primitive {p q : PrimitiveLiteral} (hp : p.Short) (hq : q.Short) :
    Cancels encodePrimitive p q := by
  cases p <;> cases q
  case boolean.boolean b c =>
    intro u v h
    cases b <;> cases c <;> simp_all [encodePrimitive]
  case int.int x y | float.float x y | long.long x y | double.double x y |
      int128.int128 x y | uInt128.uInt128 x y =>
    exact (cancels_toLeBytes (by norm_num) x y).map (w := [_]) fun _ => rfl
  case string.string s t => exact (cancels_string hp hq).map (w := [8]) fun _ => rfl
  case binary.binary a b => exact (cancels_sized hp hq).map (w := [9]) fun _ => rfl
  all_goals exact fun u v h => absurd (List.cons.inj h).1 (by decide)

theorem cancels_option {a b : Option Literal}
    (h : ∀ x ∈ a, ∀ y ∈ b, Cancels encodeLiteral x y) : Cancels encodeOption a b := by
  cases a <;> cases b
  case none.none => exact fun u v huv => ⟨rfl, (List.cons.inj huv).2⟩
  case some.some x y => exact (h x rfl y rfl).map (w := [1]) fun _ => rfl
  all_goals exact fun u v huv => absurd (List.cons.inj huv).1 (by decide)

theorem cancels_collection {α : Type} {enc : α → List UInt8} {as bs : List α} (ha : Short as)
    (hb : Short bs)
    (h : ∀ (i : ℕ) a b, as[i]? = some a → bs[i]? = some b → Cancels enc a b) :
    Cancels (fun xs : List α => lenBytes xs.length ++ xs.flatMap enc) as bs := by
  intro u v huv
  simp only [append_assoc] at huv
  obtain ⟨hlen, hrest⟩ := cancel_leBytes ha hb huv
  exact cancel_flatMap h (.inl hlen) hrest

theorem getElem?_encodeLiteral {a : Literal} {i : ℕ} {x : UInt8} (h : a.lead[i]? = some x)
    (u : List UInt8) : (encodeLiteral a ++ u)[i]? = some x := by
  have hlead : a.lead <+: encodeLiteral a := by
    cases a with
    | primitive p => exact take_prefix _ _
    | struct | list | map => exact prefix_append _ _
  obtain ⟨rest, hrest⟩ := hlead
  rw [← hrest, append_assoc, getElem?_append_left (List.getElem?_eq_some_iff.mp h).1, h]

theorem Apart.cancels {a b : Literal} (h : Apart a b) : Cancels encodeLiteral a b := by
  induction h with
  | lead ha hb hne =>
    intro u v huv
    have hx := getElem?_encodeLiteral ha u
    rw [huv, getElem?_encodeLiteral hb v] at hx
    exact absurd (Option.some.inj hx).symm hne
  | primitive hp hq => exact (cancels_primitive hp hq).map (w := []) fun _ => rfl
  | struct ha hb hnames _ ih =>
    have hname := fun {i a b} hi hj => cancels_string
      (hnames a (mem_append_left _ (mem_of_getElem? (i := i) hi)))
      (hnames b (mem_append_right _ (mem_of_getElem? (i := i) hj)))
    exact (cancels_collection ha hb fun i a b hi hj =>
      (hname hi hj).pair (cancels_option (ih i a b hi hj))).map (w := []) fun fields => by
        rw [encodeLiteral, encodeFields_eq, nil_append]
  | list ha hb _ ih =>
    exact (cancels_collection ha hb fun i a b hi hj => cancels_option (ih i a b hi hj)).map
      (w := []) fun items => by rw [encodeLiteral, encodeItems_eq, nil_append]
  | map ha hb _ _ ihk ih =>
    exact (cancels_collection ha hb fun i a b hi hj =>
      (ihk i a b hi hj).pair (cancels_option (ih i a b hi hj))).map (w := []) fun entries => by
        rw [encodeLiteral, encodeEntries_eq, nil_append]

/-! ### Kinds of literals -/

inductive Kind where
  | primitive | struct | list | map
deriving DecidableEq

def Literal.kind : Literal → Kind
  | .primitive _ => .primitive
  | .struct _ => .struct
  | .list _ => .list
  | .map _ => .map

/-- A literal of the kind that is written as two ones and then zeros. -/
def Kind.sample : Kind → Literal
  | .primitive => .primitive (.boolean false)
  | .struct => .struct [("", none)]
  | .list => .list [none]
  | .map => .map [(.list [], none)]

/-- The nulls behind it that make up ten bytes. -/
def Kind.nulls : Kind → ℕ
  | .primitive => 7
  | .list => 4
  | .struct | .map => 0

theorem kind_sample (k : Kind) : k.sample.kind = k := by
  cases k <;> rfl

theorem encodeItems_sample (k : Kind) :
    encodeItems (some k.sample :: replicate k.nulls none) = 1 :: 1 :: replicate 8 0 := by
  cases k <;> decide +kernel

/-- Keys of tuples whose literals are told apart at each place are equal only if the tuples are.
Two kinds of literals at one place are not told apart in general. -/
theorem new_eq_iff {values values' : List (Option Literal)}
    (h : ∀ (i : ℕ) a b, values[i]? = some (some a) → values'[i]? = some (some b) → Apart a b)
    (specId specId' : Int) :
    (PartitionKey.new specId values = PartitionKey.new specId' values' ↔
      specId = specId' ∧ values = values') ∧
    ∀ k k' : Kind, k ≠ k' → ∃ a b rest rest', a.kind = k ∧ b.kind = k' ∧
      PartitionKey.new specId (some a :: rest) = PartitionKey.new specId (some b :: rest') ∧
      some a :: rest ≠ some b :: rest' := by
  refine ⟨⟨?_, ?_⟩, fun k k' hkind => ?_⟩
  · intro hkey
    obtain ⟨hid, hbytes⟩ := PartitionKey.mk.inj hkey
    rw [encodeItems_eq, encodeItems_eq] at hbytes
    have hcancels : ∀ (i : ℕ) a b, values[i]? = some a → values'[i]? = some b →
        Cancels encodeOption a b := by
      rintro i a b ha hb
      exact cancels_option fun x hx y hy => (h i x y (hx ▸ ha) (hy ▸ hb)).cancels
    have hne : ∀ a, encodeOption a ≠ [] := by
      rintro (_ | l) <;> exact List.cons_ne_nil _ _
    exact ⟨hid, (cancel_flatMap (u := []) (v := []) hcancels (.inr ⟨rfl, rfl, hne⟩)
      (congrArg (· ++ []) hbytes)).1⟩
  · rintro ⟨rfl, rfl⟩
    rfl
  · refine ⟨k.sample, k'.sample, replicate k.nulls none, replicate k'.nulls none,
      kind_sample k, kind_sample k', ?_, fun heq => hkind ?_⟩
    · rw [PartitionKey.new, PartitionKey.new, encodeItems_sample, encodeItems_sample]
    · rw [← kind_sample k, ← kind_sample k', Option.some.inj (List.cons.inj heq).1]

theorem new_eq_iff_strings :
    PartitionKey.new 0 [some (.primitive (.string "a"))] =
        PartitionKey.new 0 [some (.primitive (.string "b"))] ↔
      (0 : Int) = 0 ∧ [some (Literal.primitive (.string "a"))] =
        [some (.primitive (.string "b"))] := by
  refine (new_eq_iff ?_ 0 0).1
  rintro (_ | i) a b ha hb
  · cases ha
    cases hb
    exact .primitive (by decide : (asBytes "a").length < _) (by decide : (asBytes "b").length < _)
  · cases ha

/-- A list of one null, and `false` followed by three nulls. -/
theorem new_eq_of_list : PartitionKey.new 0 [some (.list [none])] =
      PartitionKey.new 0 [some (.primitive (.boolean false)), none, none, none] ∧
    [some (Literal.list [none])] ≠ [some (.primitive (.boolean false)), none, none, none] :=
  ⟨by decide +kernel, by simp⟩

end Zelox.Iceberg.Encoding
