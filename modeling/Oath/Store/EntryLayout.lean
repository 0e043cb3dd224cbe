import Oath.Library.LinkedFiles
import Oath.Library.PercentEncoding
import Oath.Library.Replace
import Oath.Registry.Digest

/-! Where the content store keeps the files of a package. Every entry has a directory properly below
the root; which entries share one, or have one inside another's, is what the components leave of the
names. -/

namespace Oath.Store
open Registry Unix

def upperHex (byte : UInt8) : List Char := (hexDigits byte).map Char.toUpper

def isSafeByte (byte : UInt8) : Bool :=
  let c := Char.ofNat byte.toNat
  ('A' ≤ c && c ≤ 'Z') || ('a' ≤ c && c ≤ 'z') || ('0' ≤ c && c ≤ '9') ||
    ['.', '_', '-', '@', '+'].contains c

def safePathComponent (input : String) : String :=
  let out := (asBytes input).flatMap fun byte =>
    if isSafeByte byte then [Char.ofNat byte.toNat] else '%' :: upperHex byte
  if input = "" then "_"
  else if out = ['.'] then "%2E"
  else if out = ['.', '.'] then "%2E%2E"
  else String.ofList out

def replaceSlashes (name : String) : String :=
  String.ofList (name.toList.map fun c => if c = '/' then '+' else c)

structure ContentStore where
  root : Location
  /-- BLAKE3 in hexadecimal. -/
  blake3Hex : List UInt8 → String

namespace ContentStore
variable (store : ContentStore)

def inRoot (names : List String) : Path := ⟨store.root, names.map fun name => .normal (asBytes name)⟩

def packageDir (name version : String) : Path :=
  store.inRoot [safePathComponent (replaceSlashes name), safePathComponent version]

/-- The source of a package and its integrity take part in its place. -/
def packageDirFor (name version : String) (resolved integrity : Option String) : Path :=
  if resolved.isNone && integrity.isNone then store.packageDir name version
  else
    let identity := "resolved=" ++ resolved.getD "" ++ "\nintegrity=" ++ integrity.getD ""
    store.inRoot [".variants", safePathComponent (replaceSlashes name), safePathComponent version,
      store.blake3Hex (asBytes identity)]

end ContentStore

end Oath.Store

namespace Oath.Store
open Registry Replace Unix

/-! ## Components -/

section Components
variable {a b s : String} {c : Char}

theorem safePathComponent_eq : safePathComponent s =
    if s = "" then "_"
    else if Percent.encode isSafeByte (asBytes s) = ['.'] then "%2E"
    else if Percent.encode isSafeByte (asBytes s) = ['.', '.'] then "%2E%2E"
    else String.ofList (Percent.encode isSafeByte (asBytes s)) := rfl

theorem isSafeByte_percent : isSafeByte 37 = false := by decide

/-- What is read from a component is what was written, the escapes of `.` and `..` included. -/
theorem decode_safePathComponent (h : s ≠ "") :
    Percent.decode (safePathComponent s).toList = asBytes s := by
  have hread := Percent.decode_encode isSafeByte_percent (asBytes s)
  rw [safePathComponent_eq, if_neg h]
  split_ifs with hdot hdots
  · rw [← hread, hdot]
    decide
  · rw [← hread, hdots]
    decide
  · rw [String.toList_ofList, hread]

/-- The empty string has the component of an underscore. -/
def canonical (s : String) : String := if s = "" then "_" else s

theorem canonical_ne : canonical s ≠ "" := by
  unfold canonical
  split_ifs with h
  · decide
  · exact h

theorem safePathComponent_canonical : safePathComponent (canonical s) = safePathComponent s := by
  unfold canonical
  split_ifs with h
  · rw [h]
    decide
  · rfl

theorem safePathComponent_eq_iff :
    safePathComponent a = safePathComponent b ↔ canonical a = canonical b := by
  constructor
  · intro h
    rw [← safePathComponent_canonical (s := a), ← safePathComponent_canonical (s := b)] at h
    have hbytes := congrArg (fun t : String => Percent.decode t.toList) h
    rw [decode_safePathComponent canonical_ne, decode_safePathComponent canonical_ne] at hbytes
    exact asBytes_injective hbytes
  · intro h
    rw [← safePathComponent_canonical (s := a), ← safePathComponent_canonical (s := b), h]

/-- A single name: it is no way to another directory. -/
structure IsName (name : Name) : Prop where
  notSlash : slash ∉ name
  notEmpty : name ≠ []
  notDot : name ≠ [dot]
  notDots : name ≠ [dot, dot]

theorem slash_notMem_asBytes (h : '/' ∉ s.toList) : slash ∉ asBytes s := by
  have hbytes : asBytes s = s.toList.flatMap String.utf8EncodeChar := by
    rw [← asBytes_ofList, String.ofList_toList]
  intro hmem
  rw [hbytes] at hmem
  obtain ⟨c, hc, hbyte⟩ := List.mem_flatMap.mp hmem
  rcases lt_or_ge c.toNat 128 with hascii | habove
  · rw [utf8EncodeChar_ascii hascii, List.mem_singleton] at hbyte
    have hcode : c.toNat = 47 := by
      have hnat := congrArg UInt8.toNat hbyte
      rw [UInt8.toNat_ofNat_of_lt' (lt_trans hascii (by decide))] at hnat
      exact hnat.symm
    have hslash : c = '/' := by
      rw [← Char.ofNat_toNat c, hcode]
    exact h (hslash ▸ hc)
  · have hhigh := utf8EncodeChar_above habove slash hbyte
    exact absurd hhigh (by decide)

theorem isName_asBytes (hslash : '/' ∉ s.toList) (hempty : s ≠ "") (hdot : s ≠ ".")
    (hdots : s ≠ "..") : IsName (asBytes s) := by
  have hbytes : asBytes "" = [] ∧ asBytes "." = [dot] ∧ asBytes ".." = [dot, dot] := by decide
  refine ⟨slash_notMem_asBytes hslash, fun h => hempty ?_, fun h => hdot ?_, fun h => hdots ?_⟩
  · exact asBytes_injective (h.trans hbytes.1.symm)
  · exact asBytes_injective (h.trans hbytes.2.1.symm)
  · exact asBytes_injective (h.trans hbytes.2.2.symm)

theorem slash_notMem_encode (bytes : List UInt8) : '/' ∉ Percent.encode isSafeByte bytes := by
  intro h
  rcases Percent.mem_encode h with ⟨byte, -, hsafe, hc⟩ | hpercent | ⟨n, hn, hc⟩
  · rw [isSafeByte, ← hc] at hsafe
    exact absurd hsafe (by decide)
  · exact absurd hpercent (by decide)
  · have hall : ∀ n < 16, '/' ≠ (Nat.digitChar n).toUpper := by decide
    exact hall n hn hc

theorem isName_safePathComponent (s : String) : IsName (asBytes (safePathComponent s)) := by
  rw [safePathComponent_eq]
  split_ifs with hempty hdot hdots
  · exact isName_asBytes (by decide) (by decide) (by decide) (by decide)
  · exact isName_asBytes (by decide) (by decide) (by decide) (by decide)
  · exact isName_asBytes (by decide) (by decide) (by decide) (by decide)
  · have hbytes : asBytes s ≠ [] := fun h => hempty (asBytes_injective (h.trans rfl))
    have htext {t : String} (ht : Percent.encode isSafeByte (asBytes s) ≠ t.toList) :
        String.ofList (Percent.encode isSafeByte (asBytes s)) ≠ t := by
      intro h
      rw [← h, String.toList_ofList] at ht
      exact ht rfl
    refine isName_asBytes ?_ (htext (Percent.encode_ne_nil hbytes)) (htext hdot) (htext hdots)
    rw [String.toList_ofList]
    exact slash_notMem_encode _

theorem isName_hexEncode {digest : List UInt8} (h : digest.length = 32) :
    IsName (asBytes (hexEncode digest)) := by
  have hlength : (asBytes (hexEncode digest)).length = 64 := by
    rw [length_asBytes_hexEncode, h]
  have hne {t : String} (ht : (asBytes t).length ≠ 64) : hexEncode digest ≠ t := by
    intro heq
    rw [heq] at hlength
    exact ht hlength
  refine isName_asBytes ?_ (hne (by decide)) (hne (by decide)) (hne (by decide))
  rw [hexEncode, String.toList_ofList]
  intro hmem
  obtain ⟨byte, -, hc⟩ := List.mem_flatMap.mp hmem
  have hall : ∀ n < 16, '/' ≠ Nat.digitChar n := by decide
  have hlt := byte.toNat_lt
  simp only [hexDigits, List.mem_cons, List.not_mem_nil, or_false] at hc
  rcases hc with hhigh | hlow
  · exact hall _ (by omega) hhigh
  · exact hall _ (by omega) hlow

end Components

/-! ## Places -/

/-- What an entry of the store is asked for by. -/
structure StoreIdentity where
  name : String
  version : String
  resolved : Option String
  integrity : Option String
deriving DecidableEq, Repr

namespace StoreIdentity

def isPlain (id : StoreIdentity) : Bool := id.resolved.isNone && id.integrity.isNone

/-- What is hashed of a source. -/
def source (id : StoreIdentity) : String :=
  "resolved=" ++ id.resolved.getD "" ++ "\nintegrity=" ++ id.integrity.getD ""

def canonicalName (id : StoreIdentity) : String := canonical (replaceSlashes id.name)

def canonicalVersion (id : StoreIdentity) : String := canonical id.version

def SamePackage (a b : StoreIdentity) : Prop :=
  a.canonicalName = b.canonicalName ∧ a.canonicalVersion = b.canonicalVersion

/-- The directory of a plain entry named `.variants` is where all variants of a name are. -/
def HoldsVariants (a b : StoreIdentity) : Prop :=
  a.canonicalName = ".variants" ∧ a.canonicalVersion = b.canonicalName

/-- Which entries have directories of their own, neither inside the other. -/
def Separate (a b : StoreIdentity) : Prop :=
  match a.isPlain, b.isPlain with
  | true, true => ¬SamePackage a b
  | true, false => ¬HoldsVariants a b
  | false, true => ¬HoldsVariants b a
  | false, false => ¬(SamePackage a b ∧ a.source = b.source)

/-- The names of the directory below the root. -/
def names (store : ContentStore) (id : StoreIdentity) : List String :=
  if id.isPlain then [safePathComponent (replaceSlashes id.name), safePathComponent id.version]
  else [".variants", safePathComponent (replaceSlashes id.name), safePathComponent id.version,
    store.blake3Hex (asBytes id.source)]

def dir (store : ContentStore) (id : StoreIdentity) : Path :=
  store.packageDirFor id.name id.version id.resolved id.integrity

theorem dir_eq (store : ContentStore) (id : StoreIdentity) :
    id.dir store = store.inRoot (id.names store) := by
  unfold dir ContentStore.packageDirFor names isPlain
  split_ifs
  · rfl
  · rfl

end StoreIdentity

/-! ## The layout -/

/-- The first directory is the other one or above it. -/
def Holds (p q : Path) : Prop := p.base = q.base ∧ p.parts <+: q.parts

def Apart (p q : Path) : Prop := ¬Holds p q ∧ ¬Holds q p

/-- A way down from the directory, by names alone. -/
def ProperlyBelow (base : Location) (p : Path) : Prop :=
  p.base = base ∧ ∃ names, names ≠ [] ∧ p.parts = names.map .normal ∧ ∀ name ∈ names, IsName name

section Layout
variable {store : ContentStore} {a b id : StoreIdentity}

theorem holds_inRoot {xs ys : List String} :
    Holds (store.inRoot xs) (store.inRoot ys) ↔ xs <+: ys := by
  have hinjective : Function.Injective fun name => Component.normal (asBytes name) :=
    fun _ _ h => asBytes_injective (Component.normal.inj h)
  unfold Holds ContentStore.inRoot
  rw [List.prefix_map_iff_of_injective hinjective]
  exact and_iff_right rfl

theorem samePackage_iff : a.SamePackage b ↔
    safePathComponent (replaceSlashes a.name) = safePathComponent (replaceSlashes b.name) ∧
      safePathComponent a.version = safePathComponent b.version := by
  rw [safePathComponent_eq_iff, safePathComponent_eq_iff]
  rfl

theorem holdsVariants_iff : a.HoldsVariants b ↔
    safePathComponent (replaceSlashes a.name) = ".variants" ∧
      safePathComponent a.version = safePathComponent (replaceSlashes b.name) := by
  have hvariants : safePathComponent ".variants" = ".variants" := by decide
  rw [← hvariants, safePathComponent_eq_iff, safePathComponent_eq_iff]
  rfl

theorem properlyBelow_dir (hhex : ∀ bytes, ∃ digest : List UInt8, digest.length = 32 ∧
    store.blake3Hex bytes = hexEncode digest) : ProperlyBelow store.root (id.dir store) := by
  rw [id.dir_eq]
  refine ⟨rfl, (id.names store).map asBytes, ?_, ?_, ?_⟩
  · unfold StoreIdentity.names
    split_ifs
    · exact List.cons_ne_nil _ _
    · exact List.cons_ne_nil _ _
  · rw [List.map_map]
    rfl
  · have hvariants : IsName (asBytes ".variants") :=
      isName_asBytes (by decide) (by decide) (by decide) (by decide)
    obtain ⟨digest, hlength, hhash⟩ := hhex (asBytes id.source)
    have hdigest : IsName (asBytes (store.blake3Hex (asBytes id.source))) := by
      rw [hhash]
      exact isName_hexEncode hlength
    have hname := isName_safePathComponent (replaceSlashes id.name)
    have hversion := isName_safePathComponent id.version
    rw [List.forall_mem_map]
    unfold StoreIdentity.names
    split_ifs
    · simp only [List.forall_mem_cons]
      exact ⟨hname, hversion, fun _ hmem => absurd hmem List.not_mem_nil⟩
    · simp only [List.forall_mem_cons]
      exact ⟨hvariants, hname, hversion, hdigest, fun _ hmem => absurd hmem List.not_mem_nil⟩

theorem holds_plain (ha : a.isPlain) (hb : b.isPlain) :
    Holds (a.dir store) (b.dir store) ↔ a.SamePackage b := by
  rw [a.dir_eq, b.dir_eq, holds_inRoot, samePackage_iff, StoreIdentity.names, if_pos ha,
    StoreIdentity.names, if_pos hb, List.cons_prefix_cons, List.cons_prefix_cons]
  exact and_congr_right fun _ => and_iff_left List.nil_prefix

theorem holds_variant_of_plain (ha : a.isPlain) (hb : b.isPlain = false) :
    Holds (a.dir store) (b.dir store) ↔ a.HoldsVariants b := by
  rw [a.dir_eq, b.dir_eq, holds_inRoot, holdsVariants_iff, StoreIdentity.names, if_pos ha,
    StoreIdentity.names, if_neg (Bool.not_eq_true _ ▸ hb), List.cons_prefix_cons,
    List.cons_prefix_cons]
  exact and_congr_right fun _ => and_iff_left List.nil_prefix

/-- The directory of a variant is too deep to hold a plain one. -/
theorem not_holds_plain (ha : a.isPlain = false) (hb : b.isPlain) :
    ¬Holds (a.dir store) (b.dir store) := by
  rw [a.dir_eq, b.dir_eq, holds_inRoot, StoreIdentity.names, if_neg (Bool.not_eq_true _ ▸ ha),
    StoreIdentity.names, if_pos hb]
  intro h
  have hlength := h.length_le
  simp only [List.length_cons, List.length_nil] at hlength
  omega

theorem holds_variant (ha : a.isPlain = false) (hb : b.isPlain = false)
    (hinj : store.blake3Hex (asBytes a.source) = store.blake3Hex (asBytes b.source) →
      a.source = b.source) :
    Holds (a.dir store) (b.dir store) ↔ a.SamePackage b ∧ a.source = b.source := by
  have hhash : store.blake3Hex (asBytes a.source) = store.blake3Hex (asBytes b.source) ↔
      a.source = b.source := ⟨hinj, fun h => by rw [h]⟩
  rw [a.dir_eq, b.dir_eq, holds_inRoot, samePackage_iff, StoreIdentity.names,
    if_neg (Bool.not_eq_true _ ▸ ha), StoreIdentity.names, if_neg (Bool.not_eq_true _ ▸ hb),
    List.cons_prefix_cons, List.cons_prefix_cons, List.cons_prefix_cons, List.cons_prefix_cons,
    hhash, and_assoc]
  exact (and_iff_right rfl).trans (and_congr_right fun _ => and_congr_right fun _ =>
    and_iff_left List.nil_prefix)

theorem StoreIdentity.SamePackage.symm (h : a.SamePackage b) : b.SamePackage a :=
  ⟨h.1.symm, h.2.symm⟩

theorem apart_iff (hinj : store.blake3Hex (asBytes a.source) = store.blake3Hex (asBytes b.source) →
    a.source = b.source) : Apart (a.dir store) (b.dir store) ↔ a.Separate b := by
  have hinj' : store.blake3Hex (asBytes b.source) = store.blake3Hex (asBytes a.source) →
      b.source = a.source := fun h => (hinj h.symm).symm
  unfold Apart StoreIdentity.Separate
  cases ha : a.isPlain with
  | true =>
    cases hb : b.isPlain with
    | true =>
      rw [holds_plain ha hb, holds_plain hb ha]
      exact and_iff_left_of_imp fun h hsame => h hsame.symm
    | false =>
      rw [holds_variant_of_plain ha hb]
      exact and_iff_left (not_holds_plain hb ha)
  | false =>
    cases hb : b.isPlain with
    | true =>
      rw [holds_variant_of_plain hb ha]
      exact and_iff_right (not_holds_plain ha hb)
    | false =>
      rw [holds_variant ha hb hinj, holds_variant hb ha hinj']
      exact and_iff_left_of_imp fun h hsame => h ⟨hsame.1.symm, hsame.2.symm⟩

/-- Every entry has its directory properly below the root, and two of them are apart exactly when
their names and sources are told apart by what becomes of them. -/
theorem packageDirFor_layout (hhex : ∀ bytes, ∃ digest : List UInt8, digest.length = 32 ∧
    store.blake3Hex bytes = hexEncode digest) :
    (∀ id : StoreIdentity, ProperlyBelow store.root (id.dir store)) ∧
    ∀ a b : StoreIdentity,
      (store.blake3Hex (asBytes a.source) = store.blake3Hex (asBytes b.source) →
        a.source = b.source) →
      (Apart (a.dir store) (b.dir store) ↔ a.Separate b) :=
  ⟨fun _ => properlyBelow_dir hhex, fun _ _ => apart_iff⟩

end Layout

/-! ## Two sources in one directory -/

def mirroredSource : StoreIdentity where
  name := "left-pad"
  version := "1.3.0"
  resolved := some "https://registry.npmjs.org/left-pad/-/left-pad-1.3.0.tgz"
  integrity := some "sha512-one\nintegrity=sha512-two"

def otherSource : StoreIdentity where
  name := "left-pad"
  version := "1.3.0"
  resolved := some "https://registry.npmjs.org/left-pad/-/left-pad-1.3.0.tgz\nintegrity=sha512-one"
  integrity := some "sha512-two"

theorem packageDirFor_shared : mirroredSource ≠ otherSource ∧
    ∀ store : ContentStore, mirroredSource.dir store = otherSource.dir store := by
  refine ⟨by decide, fun store => ?_⟩
  have hsource : mirroredSource.source = otherSource.source := by decide
  rw [StoreIdentity.dir_eq, StoreIdentity.dir_eq]
  unfold StoreIdentity.names
  rw [hsource]
  rfl

def sha256Store : ContentStore where
  root := [asBytes "store"]
  blake3Hex bytes := hexEncode (Sha256.fips180.digest bytes)

theorem packageDirFor_layout_demo :
    ProperlyBelow sha256Store.root (mirroredSource.dir sha256Store) ∧
    (Apart ((⟨"left-pad", "1.3.0", none, none⟩ : StoreIdentity).dir sha256Store)
        ((⟨"left-pad", "1.2.0", none, none⟩ : StoreIdentity).dir sha256Store) ↔
      (⟨"left-pad", "1.3.0", none, none⟩ : StoreIdentity).Separate
        ⟨"left-pad", "1.2.0", none, none⟩) := by
  have hhex : ∀ bytes, ∃ digest : List UInt8, digest.length = 32 ∧
      sha256Store.blake3Hex bytes = hexEncode digest :=
    fun bytes => ⟨_, Sha256.fips180.length_digest bytes, rfl⟩
  obtain ⟨hbelow, hapart⟩ := packageDirFor_layout hhex
  exact ⟨hbelow mirroredSource, hapart _ _ fun _ => rfl⟩

end Oath.Store
