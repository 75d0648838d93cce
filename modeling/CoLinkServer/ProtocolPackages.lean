import CoLinkServer.Decisions

/-! How a protocol package comes into its directory. An inventory pins it by a checksum, a commit or
an image digest; what the network, the commands and the file system do is given from outside. A
package can be run as soon as its directory contains `colink.toml`. -/
namespace CoLinkServer

/-- A document of the inventory, as far as the server looks at it. -/
inductive Toml
  | string (s : String)
  | table (entries : List (String × Toml))
  | other

def Toml.get : Toml → String → Option Toml
  | .table entries,key => entries.lookup key
  | _,_ => none

inductive SourceType
  | none | tgz | git | docker
deriving DecidableEq

namespace ProtocolPackages

/-- The contents of a package directory, by the path of the file. What git keeps for itself does not
count. -/
abbrev Files := String → Option Bytes

/-- A file of the one, or else of the other. -/
def overlay (files files' : Files) : Files := fun path => (files path).or (files' path)

/-- The files of a commit, and those of the submodules as it records them. -/
structure Commit where
  files : Files
  submodules : Files

def Commit.all (commit : Commit) : Files := overlay commit.files commit.submodules

/-- The outcomes of what the server does outside of itself. An action that works in the package
directory also tells what it leaves there, with `none` if there is no directory. A command answers
whether its exit status was success, unless it could not be started. A commit of a repository is
found under its full hash; `git checkout` of it exchanges the files of the repository itself, and
leaves the submodules as `git clone --recursive` has fetched them for the default branch. -/
structure Outside where
  platform : String
  httpGet : String → Except String (ℕ × Except String String)
  parseToml : String → Except String Toml
  download : String → Except String Bytes
  sha256 : Bytes → Bytes
  readBack : Except String Unit
  rewind : Except String Unit
  unpack : Bytes → Except String Unit × Option Files
  gitClone : String → Except String Bool × Option Files
  /-- In the directory into which the repository has been cloned. -/
  gitCheckout : String → String → Except String Bool × Option Files
  commits : String → String → Option Commit
  clonedSubmodules : String → Files
  checkout_files : ∀ url hash commit dir, (gitClone url).1 = .ok true → commits url hash = some commit →
    gitCheckout url hash = (.ok true,dir) → dir = some (overlay commit.files (clonedSubmodules url))
  createDirAll : Bool
  dockerPull : String → Except String Bool
  createToml : Bool
  /-- The part of the text that is in the file when writing has failed. -/
  writeToml : Bytes → Option Bytes

/-- The artefacts that an inventory can pin. -/
inductive Pin
  | tgz (url sha256 : String)
  | git (url commit : String)
  | docker (name digest : String)
deriving DecidableEq

section Fetch

variable (o : Outside)

def downloadTgz (url sha256 : String) : Except String Unit × Option Files :=
  match o.download url with
  | .error e => (.error e,none)
  | .ok file =>
    let fileSha256 := hexEncode (o.sha256 file)
    match (if sha256 = "" then .ok () else o.readBack) with
    | .error e => (.error e,none)
    | .ok () =>
      if sha256 ≠ "" ∧ fileSha256 ≠ sha256 then
        (.error ("file checksum mismatch: expected " ++ sha256 ++ ", actual " ++ fileSha256),none)
      else
        match o.rewind with
        | .error e => (.error e,none)
        | .ok () => o.unpack file

def fetchFromGit (url commit : String) : Except String Unit × Option Files :=
  match o.gitClone url with
  | (.error e,dir) => (.error e,dir)
  | (.ok false,dir) => (.error ("fail to fetch from " ++ url),dir)
  | (.ok true,dir) =>
    if commit = "" then (.ok (),dir)
    else
      match o.gitCheckout url commit with
      | (.error e,dir) => (.error e,dir)
      | (.ok false,dir) => (.error ("checkout error: commit " ++ commit),dir)
      | (.ok true,dir) => (.ok (),dir)

def dockerToml (image : String) : Bytes :=
  stringBytes ("[package]\ndocker_image = \"" ++ image ++ "\"\n")

def onlyToml (text : Bytes) : Files := fun path => if path = "colink.toml" then some text else none

/-- The exit status of `docker pull` is not looked at. -/
def fetchDockerImage (image : String) : Except String Unit × Option Files :=
  if !o.createDirAll then
    (.error ("fail to create protocol_package_dir for " ++ image),none)
  else
    match o.dockerPull image with
    | .error e => (.error ("fail to fetch docker image: " ++ e),some fun _ => none)
    | .ok _ =>
      if !o.createToml then
        (.error ("fail to create colink.toml file for " ++ image),some fun _ => none)
      else
        match o.writeToml (dockerToml image) with
        | some written =>
          (.error ("fail to write colink.toml file for " ++ image),some (onlyToml written))
        | none => (.ok (),some (onlyToml (dockerToml image)))

/-- Two strings of a table. -/
def pinOf (key₁ key₂ : String) (make : String → String → Pin) : Option Toml → Option Pin
  | some (.table entries) =>
    match entries.lookup key₁,entries.lookup key₂ with
    | some (.string s₁),some (.string s₂) => some (make s₁ s₂)
    | _,_ => none
  | _ => none

/-- The first artefact in the document that the source type allows. -/
def pinned (doc : Toml) (sourceType : SourceType) : Option Pin :=
  let allowed (type : SourceType) (pin : Option Pin) : Option Pin :=
    if sourceType = .none ∨ sourceType = type then pin else none
  (allowed .tgz (pinOf "url" "sha256" .tgz ((doc.get "binary").bind (·.get o.platform)))).orElse
    fun _ => (allowed .tgz (pinOf "url" "sha256" .tgz
      ((doc.get "source").bind (·.get "archive")))).orElse
    fun _ => (allowed .git (pinOf "url" "commit" .git
      ((doc.get "source").bind (·.get "git")))).orElse
    fun _ => allowed .docker (pinOf "name" "digest" .docker
      ((doc.get "docker").bind (·.get "image")))

def inventoryDocument (protocolName protocolInventory : String) : Except String Toml :=
  match o.httpGet (protocolInventory ++ "/" ++ protocolName ++ ".toml") with
  | .ok (200,.ok text) => o.parseToml text
  | .ok (200,.error e) => .error e
  | _ => .error ("fail to find protocol " ++ protocolName ++ " in inventory")

def fetchPin : Pin → Except String Unit × Option Files
  | .tgz url sha256 => downloadTgz o url sha256
  | .git url commit => fetchFromGit o url commit
  | .docker name digest => fetchDockerImage o (name ++ "@" ++ digest)

def fetchProtocolFromInventory (protocolName : String) (sourceType : SourceType)
    (protocolInventory : String) : Except String Unit × Option Files :=
  match inventoryDocument o protocolName protocolInventory with
  | .error e => (.error e,none)
  | .ok doc =>
    match pinned o doc sourceType with
    | some pin => fetchPin o pin
    | none => (.error ("the inventory file of protocol " ++ protocolName ++ " is damaged"),none)

def fetchProtocolFromSource (sourceType : SourceType) (source : String) :
    Except String Unit × Option Files :=
  match sourceType with
  | .tgz => downloadTgz o source ""
  | .git => fetchFromGit o source ""
  | .docker => fetchDockerImage o source
  | .none => (.ok (),none)

/-- The result, and the package directory that was not there before. -/
def fetchProtocol (protocolName : String) (sourceType : SourceType)
    (source protocolInventory : String) (devMode : Bool) : Except String Unit × Option Files :=
  if source ≠ "" then
    if !devMode then (.error ("Please enable --pom-allow-external-source to allow loading " ++
      "protocol from arbitrary source."),none)
    else if sourceType = .none then
      (.error ("Please specify the source_type of this source " ++ source ++ "."),none)
    else fetchProtocolFromSource o sourceType source
  else fetchProtocolFromInventory o protocolName sourceType protocolInventory

end Fetch

/-- The test with which an operator is started without fetching again. -/
def runnable (dir : Option Files) : Bool := (dir.bind fun files => files "colink.toml").isSome

/-- The files are those of the pinned artefact, which has been retrieved without a failure. -/
def FromPin (o : Outside) (files : Files) : Pin → Prop
  | .tgz url sha256 => sha256 ≠ "" ∧ ∃ file, o.download url = .ok file ∧
      hexEncode (o.sha256 file) = sha256 ∧ o.unpack file = (.ok (),some files)
  | .git url commit => commit ≠ "" ∧ (o.gitClone url).1 = .ok true ∧
      (o.gitCheckout url commit).1 = .ok true ∧
      ∃ pinned, o.commits url commit = some pinned ∧ files = pinned.all
  | .docker name digest => digest ≠ "" ∧ o.dockerPull (name ++ "@" ++ digest) = .ok true ∧
      files = onlyToml (dockerToml (name ++ "@" ++ digest))

/-- The archive passes the tests that come before it is unpacked. -/
def Unpacks (o : Outside) (url sha256 : String) (file : Bytes) : Prop :=
  o.download url = .ok file ∧ o.rewind = .ok () ∧
    (sha256 ≠ "" → o.readBack = .ok () ∧ hexEncode (o.sha256 file) = sha256)

/-- The submodules of the commit, where it has no files of its own, are those of the default branch. -/
def SameSubmodules (o : Outside) (url : String) (commit : Commit) : Prop :=
  ∀ path, commit.files path = none → commit.submodules path = o.clonedSubmodules url path

/-- The pin says something, and whatever fails leaves no `colink.toml` behind. A commit is pinned by its
full hash, and its submodules are those that are there after the clone. -/
def Dependable (o : Outside) : Pin → Prop
  | .tgz url sha256 => ∀ file, Unpacks o url sha256 file → runnable (o.unpack file).2 →
      sha256 ≠ "" ∧ (o.unpack file).1 = .ok ()
  | .git url commit =>
      if (o.gitClone url).1 = .ok true ∧ commit ≠ "" then
        runnable (o.gitCheckout url commit).2 → (o.gitCheckout url commit).1 = .ok true ∧
          ∃ pinned, o.commits url commit = some pinned ∧ SameSubmodules o url pinned
      else ¬runnable (o.gitClone url).2
  | .docker name digest => o.createDirAll → o.createToml → ∀ success,
      o.dockerPull (name ++ "@" ++ digest) = .ok success →
      digest ≠ "" ∧ success ∧
        ∀ written ∈ o.writeToml (dockerToml (name ++ "@" ++ digest)),
          written = dockerToml (name ++ "@" ++ digest)

section Outcome

variable {o : Outside}

theorem runnable_some {files : Files} : runnable (some files) ↔ files "colink.toml" ≠ none :=
  Option.isSome_iff_ne_none

theorem dir_of_runnable {dir : Option Files} (h : runnable dir) : dir.isSome := by
  cases dir with
  | none => cases h
  | some files => rfl

theorem downloadTgz_of_unpacks {url sha256 : String} {file : Bytes} (h : Unpacks o url sha256 file) :
    downloadTgz o url sha256 = o.unpack file := by
  obtain ⟨hd,hw,hs⟩ := h
  unfold downloadTgz
  rw [hd]
  by_cases h0 : sha256 = ""
  · simp [h0,hw]
  · simp [h0,hw,hs h0]

theorem unpacks_of_dir {url sha256 : String} {files : Files}
    (h : (downloadTgz o url sha256).2 = some files) : ∃ file, Unpacks o url sha256 file := by
  unfold downloadTgz at h
  cases hd : o.download url with
  | error e => simp [hd] at h
  | ok file =>
    rw [hd] at h
    by_cases h0 : sha256 = ""
    · cases hw : o.rewind with
      | error e => simp [h0,hw] at h
      | ok _ => exact ⟨file,hd,hw,fun hne => absurd h0 hne⟩
    · cases hr : o.readBack with
      | error e => simp [h0,hr] at h
      | ok _ =>
        by_cases hs : hexEncode (o.sha256 file) = sha256
        · cases hw : o.rewind with
          | error e => simp [h0,hr,hs,hw] at h
          | ok _ => exact ⟨file,hd,hw,fun _ => ⟨hr,hs⟩⟩
        · simp [h0,hr,hs] at h

/-- The directory may be run only as what is pinned. -/
def Pinned (o : Outside) (dir : Option Files) (pin : Pin) : Prop :=
  ∀ files, dir = some files → files "colink.toml" ≠ none → FromPin o files pin

theorem pinned_iff_not_runnable {dir : Option Files} {pin : Pin} (h : ∀ files, ¬FromPin o files pin) :
    Pinned o dir pin ↔ ¬runnable dir := by
  cases dir with
  | none => simp [Pinned,runnable]
  | some files =>
    rw [runnable_some,not_not]
    constructor
    · intro hp
      by_contra ht
      exact h files (hp files rfl ht)
    · rintro hn files' hf ht
      obtain rfl := Option.some.inj hf
      exact absurd hn ht

theorem pinned_tgz (url sha256 : String) :
    Pinned o (downloadTgz o url sha256).2 (.tgz url sha256) ↔ Dependable o (.tgz url sha256) := by
  constructor
  · intro hp file hu hr
    rw [downloadTgz_of_unpacks hu] at hp
    obtain ⟨files,hf⟩ := Option.isSome_iff_exists.mp (dir_of_runnable hr)
    rw [hf,runnable_some] at hr
    obtain ⟨hne,file',hd,-,hok⟩ := hp files hf hr
    obtain rfl := Except.ok.inj (hu.1.symm.trans hd)
    exact ⟨hne,congrArg Prod.fst hok⟩
  · intro hd files hf ht
    obtain ⟨file,hu⟩ := unpacks_of_dir hf
    rw [downloadTgz_of_unpacks hu] at hf
    obtain ⟨hne,hok⟩ := hd file hu (by rw [hf]; exact runnable_some.mpr ht)
    exact ⟨hne,file,hu.1,(hu.2.2 hne).2,Prod.ext hok hf⟩

theorem fetchFromGit_dir (url commit : String) : (fetchFromGit o url commit).2 =
    if (o.gitClone url).1 = .ok true ∧ commit ≠ "" then (o.gitCheckout url commit).2
    else (o.gitClone url).2 := by
  unfold fetchFromGit
  rcases o.gitClone url with ⟨e | (_ | _),dir⟩
  · simp
  · simp
  · by_cases hne : commit = ""
    · simp [hne]
    · rcases hk : o.gitCheckout url commit with ⟨e | (_ | _),dir'⟩ <;> simp [hne]

theorem overlay_eq_all_iff {url : String} {commit : Commit} :
    overlay commit.files (o.clonedSubmodules url) = commit.all ↔ SameSubmodules o url commit := by
  constructor
  · intro he path hnone
    have hpath := congrFun he path
    simp only [Commit.all,overlay,hnone,Option.none_or] at hpath
    exact hpath.symm
  · intro hs
    funext path
    simp only [Commit.all,overlay]
    cases hf : commit.files path with
    | some content => rfl
    | none => rw [hs path hf]

theorem pinned_git (url commit : String) :
    Pinned o (fetchFromGit o url commit).2 (.git url commit) ↔ Dependable o (.git url commit) := by
  rw [fetchFromGit_dir]
  unfold Dependable
  dsimp only
  split_ifs with hs
  · constructor
    · intro hp hr
      obtain ⟨files,hf⟩ := Option.isSome_iff_exists.mp (dir_of_runnable hr)
      rw [hf,runnable_some] at hr
      obtain ⟨-,-,hk,pinned,hc,hall⟩ := hp files hf hr
      refine ⟨hk,pinned,hc,overlay_eq_all_iff.mp ?_⟩
      have hdir := o.checkout_files url commit pinned _ hs.1 hc (Prod.ext hk rfl)
      rw [← hall]
      exact Option.some.inj (hdir.symm.trans hf)
    · intro hd files hf ht
      obtain ⟨hk,pinned,hc,hsame⟩ := hd (by rw [hf]; exact runnable_some.mpr ht)
      have hdir := o.checkout_files url commit pinned _ hs.1 hc (Prod.ext hk rfl)
      refine ⟨hs.2,hs.1,hk,pinned,hc,?_⟩
      rw [← overlay_eq_all_iff.mpr hsame]
      exact Option.some.inj (hf.symm.trans hdir)
  · rw [pinned_iff_not_runnable]
    rintro files ⟨hne,hc,-⟩
    exact hs ⟨hc,hne⟩

theorem runnable_onlyToml (text : Bytes) : runnable (some (onlyToml text)) := by
  simp [runnable,onlyToml]

theorem fetchDockerImage_dir (image : String) : (∃ success, o.createDirAll ∧ o.createToml ∧
    o.dockerPull image = .ok success ∧
    (fetchDockerImage o image).2 =
      some (onlyToml ((o.writeToml (dockerToml image)).getD (dockerToml image)))) ∨
    (¬runnable (fetchDockerImage o image).2 ∧
      ¬(o.createDirAll ∧ o.createToml ∧ ∃ success, o.dockerPull image = .ok success)) := by
  have hempty : ¬runnable (some fun _ => none) := by simp [runnable]
  unfold fetchDockerImage
  cases hd : o.createDirAll with
  | false => exact .inr (by simp [runnable])
  | true =>
    cases hp : o.dockerPull image with
    | error e => exact .inr (by simp [hempty])
    | ok success =>
      cases ht : o.createToml with
      | false => exact .inr (by simp [hempty])
      | true =>
        refine .inl ⟨success,rfl,rfl,rfl,?_⟩
        cases o.writeToml (dockerToml image) <;> simp

theorem pinned_docker (name digest : String) :
    Pinned o (fetchDockerImage o (name ++ "@" ++ digest)).2 (.docker name digest) ↔
      Dependable o (.docker name digest) := by
  rcases @fetchDockerImage_dir o (name ++ "@" ++ digest) with ⟨success,hd,ht,hp,hdir⟩ | ⟨hn,hno⟩
  · have hwhole (text : Bytes) :
        (o.writeToml text).getD text = text ↔ ∀ written ∈ o.writeToml text, written = text := by
      cases o.writeToml text <;> simp
    rw [hdir]
    constructor
    · intro hpin _ _ success' hs'
      obtain ⟨hne,hpull,hfiles⟩ := hpin _ rfl (runnable_some.mp (runnable_onlyToml _))
      refine ⟨hne,Except.ok.inj (hs'.symm.trans hpull),(hwhole _).mp ?_⟩
      have htext := congrFun hfiles "colink.toml"
      simpa [onlyToml] using htext
    · intro hdep files hf _
      obtain ⟨hne,hsuccess,hw⟩ := hdep hd ht success hp
      refine ⟨hne,hp.trans (congrArg _ hsuccess),?_⟩
      rw [← Option.some.inj hf,(hwhole _).mpr hw]
  · have hdep : Dependable o (.docker name digest) := fun hd ht success hp =>
      absurd ⟨hd,ht,success,hp⟩ hno
    simp only [hdep,iff_true]
    intro files hf ht
    exact absurd (hf ▸ runnable_some.mpr ht) hn

theorem pinned_iff (pin : Pin) : Pinned o (fetchPin o pin).2 pin ↔ Dependable o pin := by
  cases pin with
  | tgz url sha256 => exact pinned_tgz url sha256
  | git url commit => exact pinned_git url commit
  | docker name digest => exact pinned_docker name digest

/-- The artefact that will be fetched, if the inventory can be read and pins one. -/
def chosenPin (o : Outside) (protocolName : String) (sourceType : SourceType)
    (protocolInventory : String) : Option Pin :=
  match inventoryDocument o protocolName protocolInventory with
  | .error _ => none
  | .ok doc => pinned o doc sourceType

theorem fetchProtocolFromInventory_dir (protocolName : String) (sourceType : SourceType)
    (protocolInventory : String) :
    (fetchProtocolFromInventory o protocolName sourceType protocolInventory).2 =
      (chosenPin o protocolName sourceType protocolInventory).bind fun pin => (fetchPin o pin).2 := by
  unfold fetchProtocolFromInventory chosenPin
  cases inventoryDocument o protocolName protocolInventory with
  | error e => rfl
  | ok doc => cases hp : pinned o doc sourceType <;> simp [hp]

end Outcome

/-- The archive can be cloned, but the pinned commit cannot be checked out. -/
def withoutCommit : Outside where
  platform := "linux-x86_64"
  httpGet _ := .ok (200,.ok "")
  parseToml _ := .ok (.table [("source",.table [("git",.table [("url",.string "repository"),
    ("commit",.string "0123abcd")])])])
  download _ := .error "unreachable"
  sha256 := id
  readBack := .ok ()
  rewind := .ok ()
  unpack _ := (.ok (),none)
  gitClone _ := (.ok true,some (onlyToml (stringBytes "[package]\nentrypoint = \"./latest\"\n")))
  gitCheckout _ _ := (.ok false,some (onlyToml (stringBytes "[package]\nentrypoint = \"./latest\"\n")))
  commits _ _ := none
  clonedSubmodules _ _ := none
  checkout_files _ _ _ _ _ hc := by cases hc
  createDirAll := true
  dockerPull _ := .ok true
  createToml := true
  writeToml _ := none

end ProtocolPackages
end CoLinkServer
