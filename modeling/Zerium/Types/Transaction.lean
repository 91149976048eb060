import Zerium.Lib.Heap
import Zerium.Lib.GoMap

/-! # Transactions by price and nonce

`transaction.go`, `TxByPrice` and `TransactionsByPriceAndNonce`: the miner hands over the
pending transactions, one nonce-sorted list per account, and reads them out best price first
through a heap of the accounts' next transactions. A transaction is left abstract; what the code
reads of it is its gas price, a `*big.Int` that decoding keeps non-negative, and its sender, which
`Sender(signer, tx)` recovers from the signature. The signer is that function here, and the error
`Sender` may return, which the code drops, is left out with it.

`NewTransactionsByPriceAndNonce` ranges over the map while it writes to it. A `range` loop visits
the keys the map has when it starts, each once, and reads each value as it is when visited; a key
the loop adds may be visited or not, and is not here. `accTxs[0]` and `t.heads[0]` panic on an
empty list, and so does `heap.Pop` of no heads: all three are `none` here.
-/

namespace Zerium.Types

set_option autoImplicit false

variable {Tx Addr : Type}

/-- The order of `TxByPrice`: the heap's least element has the greatest price. -/
def priceKey (price : Tx → Nat) (tx : Tx) : OrderDual Nat := OrderDual.toDual (price tx)

/-- `TxByPrice.Less`: `s[i].data.Price.Cmp(s[j].data.Price) > 0`. -/
def TxByPriceLess (price : Tx → Nat) (s : List Tx) (i j : Nat) : Bool :=
  match s[i]?, s[j]? with
  | some a, some b => decide (price a > price b)
  | _, _ => false

theorem TxByPriceLess_eq_less (price : Tx → Nat) : TxByPriceLess price = GoHeap.less (priceKey price) := by
  funext s i j
  unfold TxByPriceLess GoHeap.less
  cases s[i]? <;> cases s[j]? <;> simp [priceKey]

/-- `TransactionsByPriceAndNonce`: the rest of each account's list, and the heap of the
accounts' next transactions. -/
structure TransactionsByPriceAndNonce (Tx Addr : Type) where
  txs : GoMap Addr (List Tx)
  heads : List Tx

variable [DecidableEq Addr] (sender : Tx → Addr) (price : Tx → Nat)

/-- The loop of `NewTransactionsByPriceAndNonce` over the accounts: the first transaction of each
account's list goes to the heads, the rest back into the map under its sender. -/
def newLoop : List Addr → GoMap Addr (List Tx) → List Tx → Option (GoMap Addr (List Tx) × List Tx)
  | [], txs, heads => some (txs, heads)
  | acc :: accs, txs, heads =>
    match txs.get acc with
    | some (tx :: rest) => newLoop accs (txs.insert (sender tx) rest) (heads ++ [tx])
    | _ => none

/-- `NewTransactionsByPriceAndNonce`. -/
def NewTransactionsByPriceAndNonce (txs : GoMap Addr (List Tx)) :
    Option (TransactionsByPriceAndNonce Tx Addr) :=
  (newLoop sender txs.keys txs []).map fun r => ⟨r.1, GoHeap.init (priceKey price) r.2⟩

namespace TransactionsByPriceAndNonce

/-- `Peek`: the next transaction by price, `nil` when there is none. -/
def Peek (t : TransactionsByPriceAndNonce Tx Addr) : Option Tx := t.heads[0]?

/-- `Shift`: the best head is replaced by the next transaction of its account, or leaves the
heap when the account has no more. -/
def Shift (t : TransactionsByPriceAndNonce Tx Addr) : Option (TransactionsByPriceAndNonce Tx Addr) :=
  match t.heads[0]? with
  | none => none
  | some head =>
    let acc := sender head
    match t.txs.get acc with
    | some (tx :: rest) =>
      some ⟨t.txs.insert acc rest, GoHeap.fix (priceKey price) (t.heads.set 0 tx) 0⟩
    | _ => (GoHeap.pop (priceKey price) t.heads).map fun r => ⟨t.txs, r.2⟩

/-- `Pop`: the best head leaves the heap, and its account with it. -/
def Pop (t : TransactionsByPriceAndNonce Tx Addr) : Option (TransactionsByPriceAndNonce Tx Addr) :=
  (GoHeap.pop (priceKey price) t.heads).map fun r => ⟨t.txs, r.2⟩

/-- `Peek` then `Shift`, until `Peek` finds nothing, for at most `fuel` rounds: the transactions
peeked. -/
def peekShift : Nat → TransactionsByPriceAndNonce Tx Addr → Option (List Tx)
  | 0, t => (Peek t).elim (some []) fun _ => none
  | fuel + 1, t =>
    match Peek t with
    | none => some []
    | some tx => (Shift sender price t).bind fun t => (peekShift fuel t).map (tx :: ·)

end TransactionsByPriceAndNonce

end Zerium.Types
