import Sena.Primitives
import Sena.SortedMap

/-! An account's state on L2. Balances are kept in asset order, and a zero
balance is never stored, so one account has one encoding. -/
namespace Sena

/-- Balances by asset. -/
abbrev Balances := BTreeMap (Fin.val : U32 → Nat) U128

/-- `Account`: a nonce, and the balances that are not zero. -/
structure Account where
  nonce : U64
  balances : Balances
deriving DecidableEq

inductive BalanceError where
  | insufficient (held required : U128)
  | overflow
  | malformed
deriving DecidableEq, Repr

namespace Account

/-- `Account::new`. -/
def new : Account := ⟨0, .empty⟩

/-- The balance held in `asset`, zero if untracked. -/
def balance (a : Account) (asset : U32) : U128 := (a.balances.get asset).getD 0

/-- `Account::credit`: refuses an overflow. -/
def credit (a : Account) (asset : U32) (amount : U128) : Except BalanceError Account :=
  if amount.val = 0 then .ok a
  else if fits : (a.balance asset).val + amount.val < 2 ^ 128 then
    .ok { a with balances := a.balances.insert asset ⟨_, fits⟩ }
  else .error .overflow

/-- `Account::debit`: an emptied balance is removed. -/
def debit (a : Account) (asset : U32) (amount : U128) : Except BalanceError Account :=
  if amount.val = 0 then .ok a
  else if (a.balance asset).val < amount.val then .error (.insufficient (a.balance asset) amount)
  else if (a.balance asset).val - amount.val = 0 then .ok { a with balances := a.balances.remove asset }
  else .ok { a with balances := a.balances.insert asset (a.balance asset - amount) }

/-- Nonce, count, then the pairs of asset and amount. -/
def encode (a : Account) : Bytes :=
  be 8 a.nonce.val ++ be 4 a.balances.entries.length ++
    a.balances.entries.flatMap fun b => be 4 b.1.val ++ be 16 b.2.val

/-- Entries in strictly increasing asset order, none of them zero. -/
def readBalances : (count : Nat) → (previous : Option U32) → Balances → Reader Balances
  | 0, _, balances => return balances
  | n + 1, previous, balances => do
    let asset ← Reader.u32
    let amount ← Reader.u128
    if previous.any (asset.val ≤ ·.val) ∨ amount.val = 0 then throw (.unknownVariant 0)
    else readBalances n (some asset) (balances.insert asset amount)

def decodeInner : Reader Account := do
  let nonce ← Reader.u64
  let count ← Reader.u32
  let balances ← readBalances count.val none .empty
  Reader.finish
  return ⟨nonce, balances⟩

/-- `Account::decode`: accepts only what `encode` writes. -/
def decode (bytes : Bytes) : Except BalanceError Account :=
  match decodeInner.readAll bytes with
  | .ok a => .ok a
  | .error _ => .error .malformed

end Account
end Sena
