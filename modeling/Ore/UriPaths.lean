import Ore.Lexer
import Ore.PercentCoding

namespace Ore.UriPaths

open PercentCoding
open Lexer (ch)
open WorkspaceModel (Bytes)

/-- `file://` -/
def filePrefix : Bytes := [102, 105, 108, 101, 58, 47, 47]

def slash : UInt8 := ch '/'

def cString (buffer : Bytes) : Bytes := buffer.takeWhile (· ≠ 0)

/-- What is taken for a Windows path: `:` after a slash and one byte. -/
def looksLikeDrive : Bytes → Bool
  | a :: _ :: c :: _ => a = slash && c = ch ':'
  | _ => false

/-- `realpath` answers nothing for a file that does not exist. -/
def lspUriToPath (realpath : Bytes → Option Bytes) (uri : Bytes) : Option Bytes :=
  if filePrefix.isPrefixOf uri then
    match (uri.drop filePrefix.length).dropWhile (· ≠ slash) with
    | [] => none
    | pathPart => (decode pathPart).map fun buffer =>
        let decoded := cString buffer
        let decoded := if looksLikeDrive decoded then decoded.tail else decoded
        (realpath decoded).getD decoded
  else none

def uriPathCharSafe (c : UInt8) : Bool :=
  ch 'A' ≤ c && c ≤ ch 'Z' || ch 'a' ≤ c && c ≤ ch 'z' || ch '0' ≤ c && c ≤ ch '9' ||
    ("-._~!$&'()*+,;=:@/".toList.map ch).contains c

def lspPathToUri (path : Bytes) : Bytes := filePrefix ++ encode uriPathCharSafe path

theorem percent_unsafe : uriPathCharSafe percent = false := by decide

theorem slash_safe : uriPathCharSafe slash = true := by decide

theorem lspUriToPath_pathToUri (realpath : Bytes → Option Bytes) {path : Bytes} (habs : path.head? = some slash)
    (hnul : 0 ∉ path) :
    lspUriToPath realpath (lspPathToUri path) =
      some (if looksLikeDrive path then (realpath path.tail).getD path.tail else (realpath path).getD path) := by
  cases path with
  | nil => simp at habs
  | cons c rest =>
      obtain rfl : c = slash := by simpa using habs
      have hencode : encode uriPathCharSafe (slash :: rest) = slash :: encode uriPathCharSafe rest := by
        have hcons : encode uriPathCharSafe (slash :: rest) =
            encodeByte uriPathCharSafe slash ++ encode uriPathCharSafe rest := rfl
        rw [hcons, encodeByte, if_pos slash_safe, List.singleton_append]
      have hpart : ((lspPathToUri (slash :: rest)).drop filePrefix.length).dropWhile (· ≠ slash) =
          encode uriPathCharSafe (slash :: rest) := by
        rw [lspPathToUri, List.drop_left, hencode, List.dropWhile_cons_of_neg (by simp)]
      have hinit : filePrefix.isPrefixOf (lspPathToUri (slash :: rest)) = true :=
        List.isPrefixOf_iff_prefix.mpr (List.prefix_append ..)
      have hstring : cString (slash :: rest) = slash :: rest :=
        List.takeWhile_eq_self_iff.mpr fun b hb => by
          have hne : b ≠ 0 := fun h => hnul (h ▸ hb)
          simpa using hne
      unfold lspUriToPath
      rw [if_pos hinit, hpart, hencode]
      simp only
      rw [← hencode, decode_encode percent_unsafe, Option.map_some, hstring]
      split <;> rfl

/-- What a URI path may hold as it is: unreserved characters, sub-delimiters, `:`,
`@` and the separator. -/
def allowedUnescaped : Bytes :=
  ("ABCDEFGHIJKLMNOPQRSTUVWXYZabcdefghijklmnopqrstuvwxyz0123456789-._~".toList ++ "!$&'()*+,;=".toList ++
    ":@/".toList).map ch

theorem allowed_eq : allowedUnescaped = (List.range 26).map (fun i => UInt8.ofNat (65 + i)) ++
    (List.range 26).map (fun i => UInt8.ofNat (97 + i)) ++ (List.range 10).map (fun i => UInt8.ofNat (48 + i)) ++
      "-._~!$&'()*+,;=:@/".toList.map ch := by
  decide +kernel

theorem mem_between {first count : Nat} (hfit : first + count ≤ 256) (c : UInt8) :
    c ∈ (List.range count).map (fun i => UInt8.ofNat (first + i)) ↔ first ≤ c.toNat ∧ c.toNat < first + count := by
  rw [List.mem_map]
  constructor
  · rintro ⟨i, hi, rfl⟩
    rw [List.mem_range] at hi
    rw [UInt8.toNat_ofNat', Nat.mod_eq_of_lt (by omega)]
    omega
  · rintro ⟨hle, hlt⟩
    refine ⟨c.toNat - first, List.mem_range.mpr (by omega), ?_⟩
    rw [Nat.add_sub_cancel' hle, UInt8.ofNat_toNat]

theorem safe_iff_allowed (c : UInt8) : uriPathCharSafe c = true ↔ c ∈ allowedUnescaped := by
  have hA : (ch 'A').toNat = 65 ∧ (ch 'Z').toNat = 90 := by decide
  have ha : (ch 'a').toNat = 97 ∧ (ch 'z').toNat = 122 := by decide
  have h0 : (ch '0').toNat = 48 ∧ (ch '9').toNat = 57 := by decide
  rw [allowed_eq, List.mem_append, List.mem_append, List.mem_append, mem_between (by omega), mem_between (by omega),
    mem_between (by omega)]
  simp only [uriPathCharSafe, Bool.or_eq_true, Bool.and_eq_true, decide_eq_true_eq, UInt8.le_iff_toNat_le, hA, ha, h0,
    List.contains_iff_mem]
  exact or_congr_left (by omega)

theorem filePrefix_safe : ∀ c ∈ filePrefix, uriPathCharSafe c = true := by decide +kernel

/-- When a path comes back from its URI; a URI holds safe bytes and escapes only. -/
theorem uri_round_trip_iff (realpath : Bytes → Option Bytes) (path : Bytes) (habs : path.head? = some slash)
    (hnul : 0 ∉ path) (hreal : realpath path = none ∨ realpath path = some path) :
    (lspUriToPath realpath (lspPathToUri path) = some path ↔
      (looksLikeDrive path = true → realpath path.tail = some path)) ∧
    Escaped (fun c => c ∈ allowedUnescaped) (lspPathToUri path) := by
  have hsafe : (fun c => decide (c ∈ allowedUnescaped)) = uriPathCharSafe := by
    funext c
    rw [Bool.eq_iff_iff, decide_eq_true_iff, safe_iff_allowed]
  have hescaped : Escaped uriPathCharSafe (lspPathToUri path) := escaped_append filePrefix_safe (escaped_encode _ path)
  refine ⟨?_, hsafe ▸ hescaped⟩
  rw [lspUriToPath_pathToUri realpath habs hnul]
  by_cases hdrive : looksLikeDrive path = true
  · have hne : path.tail ≠ path := by
      intro h
      have hlength := congrArg List.length h
      cases path with
      | nil => simp at habs
      | cons c rest => simp at hlength
    simp only [Option.some.injEq, hdrive, true_implies]
    cases hcut : realpath path.tail with
    | none => simpa using hne
    | some resolved => simp
  · have hsame : (realpath path).getD path = path := by rcases hreal with h | h <;> simp [h]
    simp [hdrive, hsame]

/-- `/a b` -/
theorem uri_round_trip_space : lspUriToPath (fun _ => none) (lspPathToUri [47, 97, 32, 98]) = some [47, 97, 32, 98] :=
  (uri_round_trip_iff (fun _ => none) [47, 97, 32, 98] (by decide) (by decide) (.inl rfl)).1.mpr
    fun h => absurd h (by decide)

/-- `/a:b` comes back as `a:b`. -/
theorem uri_loses_slash : lspUriToPath (fun _ => none) (lspPathToUri [47, 97, 58, 98]) = some [97, 58, 98] := by decide

end Ore.UriPaths
