import Mintage.Session

/-!
# The development network

A session ready for use: the keyring knows the authority `bob`, and the native
currency `fei` stands beside the book with a minimum of 1. The address bound is
kept in storage.
-/

namespace Mintage.Devnet

/-- The account known as `bob`. -/
def minter : Account := .filled 1

def settings : Settings := { Settings.default with storesAddressBound := true }

def initial : Session where
  env := {
    settings
    keyring := Keyring.empty.insert (Bytes.ofText settings.authorityName)
      (settings.addressOf minter)
    switches := ⟨false, false⟩
  }
  world := .empty

end Mintage.Devnet
