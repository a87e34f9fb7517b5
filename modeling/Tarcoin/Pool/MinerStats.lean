import Mathlib
import Tarcoin.Pool.PayoutMap

/-! The page of a wallet reads the last 100000 shares and compares wallets in lower case; the
payout reads them all and counts a wallet under its very text. -/
namespace Tarcoin.Pool

section Stats
variable (rt : Runtime) (table : Text → Option Text)

def statsWindow : ℕ := 100000

/-- The two spellings that `/api/pool/miner/:wallet` compares with: `wallet` and `rawQueryWallet`. -/
def queryWallets (query : Text) : Text × Text :=
  let rawQueryWallet := rt.toLowerCase (parseMinerWorker rt (.str (trim query))).wallet
  let wallet :=
    if endsWith rawQueryWallet ".tar".toList then
      rt.toLowerCase
        (resolvedName rt rawQueryWallet (table (trim (rt.toLowerCase rawQueryWallet))))
    else rawQueryWallet
  (wallet, rawQueryWallet)

/-- Whether the page counts a share for these spellings. -/
def displays (wallets : Text × Text) (worker : Key) : Bool :=
  let rawW := rt.toLowerCase (parseMinerWorker rt worker).wallet
  let matched (address : Text) : Bool := address == wallets.1 || address == wallets.2
  matched rawW || (endsWith rawW ".tar".toList && (table rawW).any fun address =>
    rt.toLowerCase address != [] && matched (rt.toLowerCase address))

/-- `walletShares` and `totalShares` of the page. -/
def displayedShares (query : Text) (shares : List Key) : ℕ × ℕ :=
  let sharesData := shares.take statsWindow
  (sharesData.countP (displays rt table (queryWallets rt table query)), sharesData.length)

def nameOutcome (worker : Key) : Option Text :=
  table (trim (rt.toLowerCase (parseMinerWorker rt worker).wallet))

def pays (a : Text) (worker : Key) : Bool := walletOf rt worker (nameOutcome rt table worker) == a

/-- `shareCount` and `totalShares` of `processPayouts`. -/
def paidShares (a : Text) (shares : List Key) : ℕ × ℕ :=
  let wallets := resolvedWallets rt shares fun i => shares[i]?.bind (nameOutcome rt table)
  (((workerShares wallets).get a).getD 0, wallets.length)

end Stats

def shareRatio (shares : ℕ × ℕ) : ℚ := shares.1 / shares.2

theorem shareRatio_eq_iff {extra both more n m : ℕ} (hn : n = 0 → m = 0) :
    shareRatio (extra + both, n) = shareRatio (both + more, n + m) ↔
      extra * (n + m) + both * m = more * n := by
  rcases Nat.eq_zero_or_pos n with rfl | hpos
  · simp [shareRatio, hn rfl]
  · have hn' : (n : ℚ) ≠ 0 := by positivity
    have hm' : ((n + m : ℕ) : ℚ) ≠ 0 := by positivity
    rw [shareRatio, shareRatio, div_eq_div_iff hn' hm']
    norm_cast
    constructor
    · intro h
      linarith
    · intro h
      linarith

section Address
variable {a : Text}

/-- The letters of addresses and of `.tar` names. -/
def isPlain (c : Char) : Bool := isNameChar c || c == '.'

theorem toNat_lt_of_isPlain {c : Char} (h : isPlain c = true) : c.toNat < 128 := by
  simp only [isPlain, isNameChar, Char.isAlphanum, Char.isAlpha, Char.isUpper, Char.isLower,
    Char.isDigit, Bool.or_eq_true, Bool.and_eq_true, decide_eq_true_eq, UInt32.le_iff_toNat_le,
    ge_iff_le, beq_iff_eq] at h
  have hbounds : 'Z'.val.toNat = 90 ∧ 'z'.val.toNat = 122 ∧ '9'.val.toNat = 57 := ⟨rfl, rfl, rfl⟩
  rcases h with (h | rfl) | rfl
  · change c.val.toNat < 128
    omega
  · decide
  · decide

theorem isPlain_facts {c : Char} (h : isPlain c = true) :
    isSpace c = false ∧ isPlain c.toLower = true ∧ c.toLower.toLower = c.toLower ∧
      (c.toLower = '.' → c = '.') := by
  have hall : ∀ n < 128, isPlain (Char.ofNat n) = true → isSpace (Char.ofNat n) = false ∧
      isPlain (Char.ofNat n).toLower = true ∧
      (Char.ofNat n).toLower.toLower = (Char.ofNat n).toLower ∧
      ((Char.ofNat n).toLower = '.' → Char.ofNat n = '.') := by
    decide
  have hc := hall c.toNat (toNat_lt_of_isPlain h)
  rw [Char.ofNat_toNat] at hc
  exact hc h

theorem isPlain_of_isAlphanum {c : Char} (h : c.isAlphanum = true) : isPlain c = true := by
  simp [isPlain, isNameChar, h]

theorem trim_plain (hchars : ∀ c ∈ a, isPlain c = true) : trim a = a := by
  have hkeep {l : Text} (hl : ∀ c ∈ l, isPlain c = true) : l.dropWhile isSpace = l := by
    cases l with
    | nil => rfl
    | cons c l => simp [(isPlain_facts (hl c List.mem_cons_self)).1]
  rw [trim, hkeep hchars, hkeep (by simpa using hchars), List.reverse_reverse]

theorem trim_subset (s : Text) : trim s ⊆ s := by
  intro c hc
  have hmem := (List.dropWhile_sublist _).subset (List.mem_reverse.mp hc)
  exact (List.dropWhile_sublist _).subset (List.mem_reverse.mp hmem)

theorem toLowerCase_plain (rt : Runtime) (hchars : ∀ c ∈ a, isPlain c = true) :
    rt.toLowerCase a = a.map Char.toLower :=
  rt.toLowerCase_ascii a fun c hc => toNat_lt_of_isPlain (hchars c hc)

theorem wallet_alphanum (rt : Runtime) (hne : a ≠ []) (hchars : ∀ c ∈ a, c.isAlphanum = true) :
    (parseMinerWorker rt (.str a)).wallet = a := by
  have hname : a.takeWhile isNameChar = a :=
    List.takeWhile_eq_self_iff.mpr fun c hc => by simp [isNameChar, hchars c hc]
  have hdot : a.takeWhile (fun c => !decide (c = '.')) = a := by
    apply List.takeWhile_eq_self_iff.mpr
    intro c hc
    have hc := hchars c hc
    by_cases h : c = '.'
    · rw [h] at hc
      exact absurd hc (by decide)
    · simp [h]
  have hmatch : matchTar a = none := by simp [matchTar, hname]
  have htrim := trim_plain fun c hc => isPlain_of_isAlphanum (hchars c hc)
  simp [parseMinerWorker, hne, htrim, hmatch, hdot]

theorem queryWallets_alphanum (rt : Runtime) (table : Text → Option Text) (hne : a ≠ [])
    (hchars : ∀ c ∈ a, c.isAlphanum = true) :
    queryWallets rt table a = (a.map Char.toLower, a.map Char.toLower) := by
  have htar : endsWith (a.map Char.toLower) ".tar".toList = false := by
    apply Bool.eq_false_iff.mpr
    intro hends
    have hmem : '.' ∈ a.map Char.toLower :=
      (List.isSuffixOf_iff_suffix.mp hends).subset (by decide)
    obtain ⟨c, hc, hdot⟩ := List.mem_map.mp hmem
    have halphanum := hchars c hc
    rw [(isPlain_facts (isPlain_of_isAlphanum halphanum)).2.2.2 hdot] at halphanum
    exact absurd halphanum (by decide)
  have hplain := fun c hc => isPlain_of_isAlphanum (hchars c hc)
  simp only [queryWallets, trim_plain hplain, wallet_alphanum rt hne hchars,
    toLowerCase_plain rt hplain, htar, Bool.false_eq_true, if_false]

theorem isPlain_of_toLower {c : Char} (h : isPlain c.toLower = true) : isPlain c = true := by
  by_cases hupper : c.isUpper = true
  · simp [isPlain, isNameChar, Char.isAlphanum, Char.isAlpha, hupper]
  · have hsame : c.toLower = c := by
      simp_all [Char.isUpper, UInt32.le_iff_toNat_le, Char.toLower]
    rwa [hsame] at h

theorem matchTar_plain {s domain : Text} {worker : Option Text} (h : matchTar s = some (domain, worker)) :
    ∀ c ∈ domain, isPlain c = true := by
  unfold matchTar at h
  dsimp only at h
  generalize hlabel : s.takeWhile isNameChar = label at h
  generalize s.drop label.length = rest at h
  split_ifs at h with hno
  obtain ⟨-, htar⟩ := not_or.mp hno
  have hplain : ∀ c ∈ label ++ rest.take 4, isPlain c = true := by
    intro c hc
    rcases List.mem_append.mp hc with hc | hc
    · rw [← hlabel] at hc
      simp [isPlain, List.mem_takeWhile_imp hc]
    · have hlower := List.mem_map_of_mem (f := Char.toLower) hc
      rw [not_not.mp htar] at hlower
      apply isPlain_of_toLower
      have hall : ".tar".toList.all isPlain = true := by decide
      exact List.all_eq_true.mp hall _ hlower
  split at h
  · cases h
    exact hplain
  · split_ifs at h
    cases h
    exact hplain
  · cases h

theorem wallet_cases (rt : Runtime) (worker : Key) :
    '.' ∉ (parseMinerWorker rt worker).wallet ∨
      rt.toLowerCase (parseMinerWorker rt worker).wallet = (parseMinerWorker rt worker).wallet ∧
        trim (parseMinerWorker rt worker).wallet = (parseMinerWorker rt worker).wallet := by
  unfold parseMinerWorker
  split
  · split_ifs
    · exact .inl List.not_mem_nil
    · dsimp only
      split
      · rename_i domain _ hmatch
        right
        have hplain := matchTar_plain hmatch
        have hlower : ∀ c ∈ domain.map Char.toLower, isPlain c = true := by
          intro c hc
          obtain ⟨c, hmem, rfl⟩ := List.mem_map.mp hc
          exact (isPlain_facts (hplain c hmem)).2.1
        rw [toLowerCase_plain rt hplain, toLowerCase_plain rt hlower, trim_plain hlower, List.map_map]
        refine ⟨List.map_congr_left fun c hc => ?_, rfl⟩
        exact (isPlain_facts (hplain c hc)).2.2.1
      · left
        intro hdot
        simpa using List.mem_takeWhile_imp hdot
  · exact .inl List.not_mem_nil

end Address

/-- No letter has a full stop in its lower-case form. -/
def Runtime.KeepsStops (rt : Runtime) : Prop := ∀ s : Text, '.' ∈ rt.toLowerCase s → '.' ∈ s

section Agreement
variable {rt : Runtime} {table : Text → Option Text} {a : Text}

section
variable (hstops : rt.KeepsStops) (hne : a ≠ []) (hchars : ∀ c ∈ a, c.isAlphanum = true)
include hstops hne hchars

theorem displays_of_pays {worker : Key} (h : pays rt table a worker = true) :
    displays rt table (queryWallets rt table a) worker = true := by
  have hlower := toLowerCase_plain rt fun c hc => isPlain_of_isAlphanum (hchars c hc)
  rw [queryWallets_alphanum rt table hne hchars, ← hlower]
  unfold pays nameOutcome walletOf at h
  unfold displays
  have hcases := wallet_cases rt worker
  generalize (parseMinerWorker rt worker).wallet = raw at h hcases
  rw [beq_iff_eq, resolvedName] at h
  dsimp only at h ⊢
  split_ifs at h with hname
  · obtain ⟨-, htar, -⟩ := hname
    obtain hstop | ⟨hlow, htrim⟩ := hcases
    · -- without a full stop it does not end as a name does
      have hmem : '.' ∈ trim (rt.toLowerCase raw) :=
        (List.isSuffixOf_iff_suffix.mp htar).subset (by decide)
      exact absurd (hstops raw (trim_subset _ hmem)) hstop
    · rw [hlow, htrim] at h htar
      rw [hlow]
      cases hentry : table raw with
      | none =>
        rw [hentry, Option.getD_none] at h
        simp [← h, hlow]
      | some address =>
        rw [hentry, Option.getD_some] at h
        have hempty : (rt.toLowerCase a != []) = true := by simpa [hlower] using hne
        simp only [h, htar, hempty, Option.any_some, beq_self_eq_true, Bool.or_true, Bool.and_true]
  · simp [h]

theorem countP_displays (shares : List Key) :
    shares.countP (displays rt table (queryWallets rt table a)) =
      shares.countP (fun worker => displays rt table (queryWallets rt table a) worker &&
        !pays rt table a worker) + shares.countP (pays rt table a) := by
  rw [List.countP_eq_countP_filter_add _ _ (pays rt table a), List.countP_filter,
    List.countP_filter, Nat.add_comm]
  congr 1
  apply List.countP_congr
  intro worker _
  rw [Bool.and_eq_true]
  exact and_iff_right_of_imp (displays_of_pays hstops hne hchars)

end

variable (rt table) in
theorem paidShares_eq (ha : a ∉ inheritedNames) (shares : List Key) :
    paidShares rt table a shares = (shares.countP (pays rt table a), shares.length) := by
  have hwallets : (resolvedWallets rt shares fun i => shares[i]?.bind (nameOutcome rt table)) =
      shares.map fun worker => walletOf rt worker (nameOutcome rt table worker) := by
    apply List.ext_getElem?
    intro i
    simp only [resolvedWallets, List.getElem?_mapIdx, List.getElem?_map]
    cases hi : shares[i]? with
    | none => rfl
    | some worker => simp
  have hcount : (shares.map fun worker => walletOf rt worker (nameOutcome rt table worker)).count a =
      shares.countP (pays rt table a) := by
    rw [List.count, List.countP_map]
    rfl
  rw [paidShares, hwallets, get_workerShares, hcount, List.length_map]
  split_ifs with hmem
  · rfl
  · have hnone : a ∉ shares.map fun worker => walletOf rt worker (nameOutcome rt table worker) :=
      fun h => hmem ⟨h, ha⟩
    rw [← hcount, List.count_eq_zero.mpr hnone]
    rfl

end Agreement

/-- A text that can be an address: letters and digits, and no name from the prototype of objects. -/
def WalletText (a : Text) : Prop :=
  a ≠ [] ∧ (∀ c ∈ a, c.isAlphanum = true) ∧ a ∉ inheritedNames

/-- The page of an address shows the proportion it is paid exactly if the shares it shows but does not
pay, taken over all shares, make up for what the older shares add to its proportion; with at most
100000 shares, exactly if it shows none that it does not pay. -/
theorem displayed_eq_paid_iff (rt : Runtime) (hstops : rt.KeepsStops) (table : Text → Option Text)
    (a : Text) (ha : WalletText a) (shares : List Key) :
    let recent := shares.take statsWindow
    let older := shares.drop statsWindow
    let shows := displays rt table (queryWallets rt table a)
    let agree := shareRatio (displayedShares rt table a shares) = shareRatio (paidShares rt table a shares)
    (agree ↔ recent.countP (fun worker => shows worker && !pays rt table a worker) * shares.length +
        recent.countP (pays rt table a) * older.length =
      older.countP (pays rt table a) * recent.length) ∧
    (shares.length ≤ statsWindow →
      (agree ↔ ∀ worker ∈ shares, shows worker = true → pays rt table a worker = true)) := by
  obtain ⟨hne, hchars, hinherited⟩ := ha
  intro recent older shows agree
  have hsplit : recent ++ older = shares := List.take_append_drop statsWindow shares
  have hdisplayed : displayedShares rt table a shares =
      (recent.countP (fun worker => shows worker && !pays rt table a worker) +
        recent.countP (pays rt table a), recent.length) := by
    rw [← countP_displays hstops hne hchars]
    rfl
  have hpaid : paidShares rt table a shares =
      (recent.countP (pays rt table a) + older.countP (pays rt table a),
        recent.length + older.length) := by
    rw [paidShares_eq rt table hinherited, ← List.countP_append, ← List.length_append, hsplit]
  have hlength : shares.length = recent.length + older.length := by
    rw [← hsplit, List.length_append]
  have hiff : agree ↔ recent.countP (fun worker => shows worker && !pays rt table a worker) *
      shares.length + recent.countP (pays rt table a) * older.length =
        older.countP (pays rt table a) * recent.length := by
    simp only [agree, hdisplayed, hpaid, hlength]
    apply shareRatio_eq_iff
    intro hzero
    have hnil : shares = [] := by
      simpa [recent, statsWindow, List.length_eq_zero_iff] using hzero
    simp [older, hnil]
  refine ⟨hiff, fun hshort => ?_⟩
  have hrecent : recent = shares := List.take_of_length_le hshort
  have holder : older = [] := List.drop_of_length_le hshort
  rw [hiff, hrecent, holder]
  constructor
  · intro h worker hworker hshows
    have hlen : shares.length ≠ 0 := (List.length_pos_of_mem hworker).ne'
    have hzero : shares.countP (fun worker => shows worker && !pays rt table a worker) = 0 := by
      simpa [hlen] using h
    simpa [hshows] using List.countP_eq_zero.mp hzero worker hworker
  · intro h
    have hzero : shares.countP (fun worker => shows worker && !pays rt table a worker) = 0 := by
      apply List.countP_eq_zero.mpr
      intro worker hworker
      have hworker := h worker hworker
      cases hshows : shows worker with
      | false => simp
      | true => simp [hworker hshows]
    simp [hzero]

section Sample

def pageWallet : Text := "tar1qqqqqqqqqqqqqqqqqqqqqqqqqqqqqqqqqck3y2w".toList

theorem walletText_pageWallet : WalletText pageWallet := by
  have hchars : pageWallet.all Char.isAlphanum = true := by decide
  exact ⟨by decide, List.all_eq_true.mp hchars, by decide⟩

theorem constant_keepsStops : Runtime.constant.KeepsStops := by
  intro s hs
  obtain ⟨c, hc, hdot⟩ := List.mem_map.mp hs
  have hplain : isPlain c = true := isPlain_of_toLower (by rw [hdot]; decide)
  rwa [(isPlain_facts hplain).2.2.2 hdot] at hc

theorem displayed_eq_paid_oneWallet :
    shareRatio (displayedShares .constant (fun _ => none) pageWallet oneWallet) =
      shareRatio (paidShares .constant (fun _ => none) pageWallet oneWallet) := by
  apply ((displayed_eq_paid_iff .constant constant_keepsStops (fun _ => none) pageWallet
    walletText_pageWallet oneWallet).2 (by decide)).mpr
  decide

/-- A share under the upper-case spelling is shown and not paid; and a share that is older than
100000 others is paid and not shown. -/
theorem displayed_ne_paid :
    shareRatio (displayedShares .constant (fun _ => none) pageWallet twoSpellings) ≠
      shareRatio (paidShares .constant (fun _ => none) pageWallet twoSpellings) ∧
    ∃ shares, shares.length ≤ 1000000 ∧
      shareRatio (displayedShares .constant (fun _ => none) pageWallet shares) ≠
        shareRatio (paidShares .constant (fun _ => none) pageWallet shares) := by
  constructor
  · have hdisplayed : displayedShares .constant (fun _ => none) pageWallet twoSpellings = (2, 2) := by
      decide
    have hpaid : paidShares .constant (fun _ => none) pageWallet twoSpellings = (1, 2) := by
      decide
    rw [hdisplayed, hpaid]
    norm_num [shareRatio]
  · have hother : displays .constant (fun _ => none) (queryWallets .constant (fun _ => none) pageWallet)
        (minerName "bob") = false := by decide
    have hunpaid : pays .constant (fun _ => none) pageWallet (minerName "bob") = false := by
      decide
    have hown : pays .constant (fun _ => none) pageWallet (.str pageWallet) = true := by
      decide
    refine ⟨List.replicate statsWindow (minerName "bob") ++ [.str pageWallet], ?_, ?_⟩
    · rw [List.length_append, List.length_replicate]
      decide
    · rw [paidShares_eq _ _ walletText_pageWallet.2.2, displayedShares,
        List.take_left' List.length_replicate]
      simp only [shareRatio, List.countP_append, List.countP_replicate, List.countP_singleton, hother,
        hunpaid, hown, List.length_append, List.length_replicate, List.length_singleton, if_true,
        Bool.false_eq_true, if_false, Nat.cast_zero, zero_div]
      positivity

end Sample

end Tarcoin.Pool
